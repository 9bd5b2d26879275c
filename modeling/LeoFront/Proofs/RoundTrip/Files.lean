import LeoFront.Grammar.SyntaxError
import LeoFront.Proofs.RoundTrip.Blocks
import LeoFront.Proofs.RoundTrip.Imports

namespace LeoFront

namespace Grammar
open LeoFront.Parser
variable {ts : List Token}

theorem accepts_member {member : Member} (wellFormed : member.WellFormed) (ts : List Token) :
    Accepts Grammar.member (spaced (member.tokens ++ ts)) (·.erase = member.erase) (gap ts) := by
  refine (accepts_identifier wellFormed.name _).bind fun name sameName => ?_
  refine accepts_past ":" _ rfl ?_
  refine (accepts_blanks (solid_type wellFormed.type ts)).bind fun _ _ => ?_
  refine (accepts_type wellFormed.type ts).bind fun type sameType => accepts_pure ?_
  rw [Member.erase, Member.erase, sameName, sameType]

theorem accepts_enclosed {α β : Type} {item : Parser α} {view : α → α} {items : List α}
    {next : List α → Parser β} {good : β → Prop} {rest : List Char} (tokens : α → List Token)
    (mark : String) (solid : ∀ one ∈ items, ∀ after, Solid (tokens one ++ after))
    (accepts : ∀ one ∈ items, ∀ after,
      Accepts item (spaced (tokens one ++ after)) (fun value => view value = view one) (gap after))
    (closed : Solid (mark.toList :: ts))
    (noComma : Rejects (literal ",") (spaced (mark.toList :: ts)))
    (noItem : Rejects item (spaced (mark.toList :: ts)))
    (goesOn : ∀ values, values.map view = items.map view →
      Accepts (next values) (gap ts) good rest) :
    Accepts (do
      blanks
      let values ← possiblyEmpty (separatedTrailing item)
      blanks
      literal mark
      next values) (gap (commas (items.map tokens) ++ mark.toList :: ts)) good rest := by
  let pieces : List (α × List Token) := items.map fun one => (one, tokens one)
  have firsts : pieces.map Prod.fst = items := by simp [pieces, Function.comp_def]
  have seconds : pieces.map Prod.snd = items.map tokens := by simp [pieces]
  have readable : Readable item (fun one value => view value = view one) (mark.toList :: ts)
      pieces := by
    constructor
    case solid =>
      intro piece member
      obtain ⟨one, among, rfl⟩ := List.mem_map.mp member
      exact solid one among
    case accepts =>
      intro piece member after _
      obtain ⟨one, among, rfl⟩ := List.mem_map.mp member
      exact accepts one among after
  have begins := solid_commas readable.solid closed
  obtain ⟨middle, readItems, skip⟩ := accepts_possiblyEmpty closed
    (fun nonempty => accepts_separatedTrailing readable nonempty closed noComma) noItem.bind.bind
  rw [firsts, seconds] at readItems
  rw [seconds] at begins
  refine (accepts_blanks begins).bind fun _ _ => readItems.bind fun values all => ?_
  refine skip.bind fun _ _ => (accepts_literal mark ts).bind fun _ _ => ?_
  exact goesOn values (map_eq_of_forall₂ all)

theorem accepts_circuit {circuit : Circuit} (wellFormed : circuit.WellFormed) (ts : List Token) :
    Accepts Grammar.circuit (spaced (circuit.tokens ++ ts)) (·.erase = circuit.erase)
      (gap ts) := by
  have kinds (isRecord : Bool) (ts : List Token) :
      Accepts (oneWord [("circuit", false), ("record", true)])
        (spaced ((if isRecord then "record" else "circuit").toList :: ts)) (· = isRecord)
        (gap ts) := by
    intro position
    cases isRecord <;> cases ts <;> exact ⟨_, _, rfl, rfl⟩
  have solid : ∀ member ∈ circuit.members, ∀ after, Solid (Member.tokens member ++ after) :=
    fun member among after => IsName.solid (wellFormed.members member among).name _
  have accepts : ∀ member ∈ circuit.members, ∀ after, Accepts Grammar.member
      (spaced (member.tokens ++ after)) (·.erase = member.erase) (gap after) :=
    fun member among => accepts_member (wellFormed.members member among)
  simp only [Circuit.tokens, List.cons_append, List.append_assoc, List.nil_append]
  refine Accepts.spanned ((kinds _ _).bind fun isRecord sameKind => ?_)
  refine (accepts_blanks (IsName.solid wellFormed.name _)).bind fun _ _ => ?_
  refine (accepts_identifier wellFormed.name _).bind fun name sameName => ?_
  refine accepts_past "\x7b" _ rfl ?_
  refine accepts_enclosed Member.tokens "\x7d" solid accepts rfl (fun _ => rfl) (fun _ => rfl)
    fun members sameMembers => accepts_pure fun span => ?_
  rw [Circuit.erase, Circuit.erase, sameKind, sameName, sameMembers]

theorem accepts_input {input : Input} (wellFormed : input.WellFormed) (ts : List Token) :
    Accepts Grammar.input (spaced (input.tokens ++ ts)) (·.erase = input.erase) (gap ts) := by
  have modes (ts : List Token) :
      Accepts Grammar.mode (spaced (input.mode.text.toList :: ts)) (· = input.mode) (gap ts) := by
    intro position
    cases input.mode <;> cases ts <;> exact ⟨_, _, rfl, rfl⟩
  have begins := IsName.solid wellFormed.name (":".toList :: (input.type.tokens ++ ts))
  have readsMode : Accepts (do
      let mode ← Grammar.mode
      blanks
      return mode) (spaced (input.tokens ++ ts)) (· = input.mode) _ :=
    (modes _).bind fun mode same => (accepts_blanks begins).bind fun _ _ => accepts_pure same
  refine Accepts.spanned (readsMode.optional.bind fun read known => ?_)
  obtain ⟨mode, rfl, sameMode⟩ := known
  refine (accepts_identifier wellFormed.name _).bind fun name sameName => ?_
  refine accepts_past ":" _ rfl ?_
  refine (accepts_blanks (solid_type wellFormed.type ts)).bind fun _ _ => ?_
  refine (accepts_type wellFormed.type ts).bind fun type sameType => accepts_pure fun span => ?_
  rw [Input.erase, Input.erase, Option.getD_some, sameMode, sameName, sameType]

theorem accepts_function (extra : AtPlaces) (place : List Nat) {function : FunctionDecl}
    (wellFormed : function.WellFormed) (ts : List Token) :
    Accepts Grammar.function (spaced (function.tokens extra place ++ ts))
      (·.erase = function.erase) (gap ts) := by
  have solid : ∀ input ∈ function.inputs, ∀ after, Solid (Input.tokens input ++ after) := by
    intro input _ after
    obtain ⟨identifier, mode, _⟩ := input
    have begins (mode : Mode) (rest : List Token) : Solid (mode.text.toList :: rest) := by
      cases mode <;> rfl
    exact begins mode _
  have accepts : ∀ input ∈ function.inputs, ∀ after, Accepts Grammar.input
      (spaced (input.tokens ++ after)) (·.erase = input.erase) (gap after) :=
    fun input among => accepts_input (wellFormed.inputs input among)
  have readsBody := accepts_body extra place function.body wellFormed.body ts
  obtain ⟨inside, same⟩ := block_tokens extra place function.body
  have brace (rest : List Token) : Solid ("\x7b".toList :: rest) := rfl
  have noArrow (rest : List Token) : Rejects (literal "->") (spaced ("\x7b".toList :: rest)) :=
    fun _ => rfl
  have begins : Solid (annotated "->" function.output ++ "\x7b".toList :: (inside ++ ts)) := by
    cases function.output <;> rfl
  simp only [FunctionDecl.tokens, same, List.cons_append, List.append_assoc]
  rw [same] at readsBody
  refine Accepts.spanned ((accepts_word "function" _).bind fun _ _ => ?_)
  refine (accepts_blanks (IsName.solid wellFormed.name _)).bind fun _ _ => ?_
  refine (accepts_identifier wellFormed.name _).bind fun name sameName => ?_
  refine accepts_past "(" _ rfl ?_
  refine accepts_enclosed Input.tokens ")" solid accepts rfl (fun _ => rfl) (fun _ => rfl)
    fun inputs sameInputs => (accepts_blanks begins).bind fun _ _ => ?_
  refine (accepts_annotated "->" wellFormed.output (brace _) (noArrow _)).bind
    fun output sameOutput => ?_
  refine readsBody.bind fun body sameBody => accepts_pure fun span => ?_
  rw [FunctionDecl.erase, FunctionDecl.erase, sameName, sameInputs, sameOutput, sameBody]

def Item.erase : Item → Item
  | .statement imported => .statement imported.erase
  | .declaration declared => .declaration declared.erase

theorem filterMap_erase {α : Type} {view : Item → Option α} {erased : α → α}
    (commutes : ∀ item : Item, view item.erase = (view item).map erased) (items : List Item) :
    (items.map Item.erase).filterMap view = (items.filterMap view).map erased := by
  rw [List.filterMap_map, List.map_filterMap]
  congr 1
  funext item
  exact commutes item

theorem statement?_erase (item : Item) :
    item.erase.statement? = item.statement?.map Import.erase := by
  cases item <;> rfl

theorem declaration?_erase (item : Item) :
    item.erase.declaration? = item.declaration?.map Declaration.erase := by
  cases item <;> rfl

theorem filterMap_statement (imports : List Import) (declarations : List Declaration) :
    (imports.map Item.statement ++ declarations.map Item.declaration).filterMap Item.statement? =
      imports := by
  have taken : Item.statement? ∘ .statement = some := rfl
  have left : declarations.filterMap (Item.statement? ∘ .declaration) = [] :=
    List.filterMap_eq_nil_iff.mpr fun _ _ => rfl
  rw [List.filterMap_append, List.filterMap_map, List.filterMap_map, taken, left,
    List.filterMap_some, List.append_nil]

theorem filterMap_declaration (imports : List Import) (declarations : List Declaration) :
    (imports.map Item.statement ++ declarations.map Item.declaration).filterMap Item.declaration? =
      declarations := by
  have taken : Item.declaration? ∘ .declaration = some := rfl
  have left : imports.filterMap (Item.declaration? ∘ .statement) = [] :=
    List.filterMap_eq_nil_iff.mpr fun _ _ => rfl
  rw [List.filterMap_append, List.filterMap_map, List.filterMap_map, taken, left,
    List.filterMap_some, List.nil_append]

structure ReadsItem (piece : Item × List Token) : Prop where
  solid : ∀ ts, Solid (piece.2 ++ ts)
  accepts : ∀ ts, Accepts item (spaced (piece.2 ++ ts)) (·.erase = piece.1.erase) (gap ts)

theorem readsItem_import {statement : Import} (wellFormed : statement.WellFormed) :
    ReadsItem (.statement statement, statement.tokens) := by
  refine ⟨fun ts => rfl, fun ts => Accepts.firstOf_head ?_⟩
  refine (accepts_importStatement wellFormed ts).bind fun read same => accepts_pure ?_
  rw [Item.erase, Item.erase, same]

theorem readsItem_declaration (extra : AtPlaces) (place : List Nat) {declaration : Declaration}
    (wellFormed : declaration.WellFormed) :
    ReadsItem (.declaration declaration, declaration.tokens extra place) := by
  cases declaration with
  | circuit declared =>
    have begins (isRecord : Bool) (rest : List Token) :
        Solid ((if isRecord then "record" else "circuit").toList :: rest) := by
      cases isRecord <;> rfl
    have noImport (isRecord : Bool) (rest : List Token) : Rejects importStatement
        (spaced ((if isRecord then "record" else "circuit").toList :: rest)) := by
      cases isRecord <;> exact fun _ => rfl
    constructor
    case solid => exact fun ts => begins declared.isRecord _
    case accepts =>
      intro ts
      refine (noImport declared.isRecord _).bind.firstOf_tail (Accepts.firstOf_head ?_)
      refine (accepts_circuit wellFormed ts).bind fun read same => accepts_pure ?_
      rw [Item.erase, Item.erase, Declaration.erase, Declaration.erase, same]
  | function declared =>
    have noImport (rest : List Token) :
        Rejects importStatement (spaced ("function".toList :: rest)) := fun _ => rfl
    have noCircuit (rest : List Token) :
        Rejects Grammar.circuit (spaced ("function".toList :: rest)) := fun _ => rfl
    constructor
    case solid => exact fun ts => rfl
    case accepts =>
      intro ts
      refine (noImport _).bind.firstOf_tail ((noCircuit _).bind.firstOf_tail ?_)
      refine Accepts.firstOf_head ?_
      refine (accepts_function extra place wellFormed ts).bind fun read same => accepts_pure ?_
      rw [Item.erase, Item.erase, Declaration.erase, Declaration.erase, same]

theorem readsItem_declarations (extra : AtPlaces) (branch : Nat) (declarations : List Declaration)
    (wellFormed : ∀ declaration ∈ declarations, declaration.WellFormed) :
    ∃ pieces : List (Item × List Token), pieces.map Prod.fst = declarations.map .declaration ∧
      pieces.flatMap Prod.snd = Declaration.tokensEach extra branch declarations ∧
      ∀ piece ∈ pieces, ReadsItem piece := by
  induction declarations generalizing branch with
  | nil => exact ⟨[], rfl, rfl, by simp⟩
  | cons first rest ih =>
    rw [List.forall_mem_cons] at wellFormed
    obtain ⟨pieces, same, tokens, reads⟩ := ih (branch + 1) wellFormed.2
    have head := readsItem_declaration extra [branch] wellFormed.1
    refine ⟨(.declaration first, first.tokens extra [branch]) :: pieces, by simp [same], ?_, ?_⟩
    · rw [List.flatMap_cons, tokens, Declaration.tokensEach]
    · exact List.forall_mem_cons.mpr ⟨head, reads⟩

theorem readsItem_file (extra : AtPlaces) {file : File} (wellFormed : file.WellFormed) :
    ∃ pieces : List (Item × List Token),
      pieces.map Prod.fst = file.imports.map .statement ++ file.declarations.map .declaration ∧
      pieces.flatMap Prod.snd = file.tokens extra ∧ ∀ piece ∈ pieces, ReadsItem piece := by
  obtain ⟨declared, same, tokens, reads⟩ :=
    readsItem_declarations extra 0 file.declarations wellFormed.declarations
  let imported : List (Item × List Token) :=
    file.imports.map fun statement => (.statement statement, statement.tokens)
  refine ⟨imported ++ declared, ?_, ?_, ?_⟩
  · simp [imported, same]
  · rw [List.flatMap_append, tokens, File.tokens]
    simp [imported, List.flatMap_map]
  · rw [List.forall_mem_append]
    refine ⟨?_, reads⟩
    intro piece member
    obtain ⟨statement, among, rfl⟩ := List.mem_map.mp member
    exact readsItem_import (wellFormed.imports statement among)

theorem accepts_file (extra : AtPlaces) {file : File} (wellFormed : file.WellFormed) :
    Accepts Grammar.file (spaced (file.tokens extra)) (·.erase = file.erase) [] := by
  obtain ⟨pieces, same, tokens, reads⟩ := readsItem_file extra wellFormed
  have begins (rest : List (Item × List Token)) (suffix : rest <:+ pieces) :
      Solid (rest.flatMap Prod.snd ++ []) := by
    cases rest with
    | nil => rfl
    | cons piece rest =>
      rw [List.flatMap_cons, List.append_assoc]
      exact (reads piece (suffix.subset List.mem_cons_self)).solid _
  have each : ∀ piece rest, piece :: rest <:+ pieces →
      Accepts (do
        let item ← Grammar.item
        blanks
        return item) (spaced (piece.2 ++ (rest.flatMap Prod.snd ++ [])))
        (·.erase = piece.1.erase) (spaced (rest.flatMap Prod.snd ++ [])) := by
    intro piece rest suffix
    have next := begins rest ((List.suffix_cons piece rest).trans suffix)
    have readsPiece := reads piece (suffix.subset List.mem_cons_self)
    refine (readsPiece.accepts _).bind fun value known => ?_
    exact (accepts_blanks next).bind fun _ _ => accepts_pure known
  have noItem : Rejects Grammar.item (spaced []) := fun _ => rfl
  have solid : ∀ piece ∈ pieces, ∀ ts, Solid (piece.2 ++ ts) :=
    fun piece member => (reads piece member).solid
  have repeated := accepts_many_spaced solid each noItem.bind
  rw [← tokens, ← List.append_nil (pieces.flatMap Prod.snd)]
  refine Accepts.spanned ((accepts_no_blanks (begins pieces List.suffix_rfl)).bind fun _ _ => ?_)
  refine repeated.bind fun values all => accepts_pure fun span => ?_
  have items := map_eq_of_forall₂ (List.forall₂_map_left_iff.mpr all)
  rw [File.erase, File.erase, ← filterMap_erase statement?_erase,
    ← filterMap_erase declaration?_erase, items, filterMap_erase statement?_erase,
    filterMap_erase declaration?_erase, same, filterMap_statement, filterMap_declaration]

end Grammar

/-- Parsing undoes printing. -/
theorem File.parse_print (extra : AtPlaces) (file : File) (wellFormed : file.WellFormed)
    (sourceName : Option String) :
    ∃ parsed, File.parse (file.print extra) sourceName = .ok parsed ∧ parsed.erase = file.erase := by
  obtain ⟨parsed, after, result, same⟩ := Grammar.accepts_file extra wellFormed .start
  have accepted : File.parse (file.print extra) sourceName = .ok parsed := by
    unfold File.parse File.parseChars Parser.run Cursor.ofSource
    rw [File.print, String.toList_ofList]
    simp only [result]
  exact ⟨parsed, accepted, same⟩

open Grammar (IsName StartsAddress digit)

def doubledSum : File :=
  let name (text : String) : Identifier := ⟨text, .none⟩
  let sum : Expression :=
    .binary .add (.var "a" .none) (.literal "1" (.integer ⟨false, .bits8⟩) .none) .none
  let double : Expression :=
    .binary .mul sum (.literal "2" (.integer ⟨false, .bits8⟩) .none) .none
  let body : Block := .mk [.ret double .none] .none
  ⟨[⟨⟨name "util", .multiple [.symbol ⟨name "add", some (name "plus"), .none⟩, .star .none] .none,
      .none⟩, .none⟩],
    [.function ⟨name "main", [⟨name "a", .hidden, .primitive (.integer ⟨false, .bits8⟩), .none⟩],
      some (.primitive (.integer ⟨false, .bits8⟩)), body, .none⟩], .none⟩

theorem doubledSum_wellFormed : doubledSum.WellFormed := by
  have isName : ∀ name ∈ ["util", "add", "plus", "main", "a"], IsName name := by decide
  have noAddress : ¬ StartsAddress "a" := by
    rintro ⟨c, rest, same, _⟩
    cases same
  have digits : ∀ value ∈ ["1", "2"],
      value.toList ≠ [] ∧ value.toList.all digit.contains = true := by decide
  have number : ∀ value ∈ ["1", "2"], Primitive.Fits value (.integer ⟨false, .bits8⟩) :=
    fun value member => ⟨(digits value member).1, List.all_eq_true.mp (digits value member).2⟩
  constructor
  case imports =>
    simp only [doubledSum, List.forall_mem_singleton]
    have symbol : ImportSymbol.WellFormed ⟨⟨"add", .none⟩, some ⟨"plus", .none⟩, .none⟩ := by
      constructor
      case symbol => exact isName "add" (by decide)
      case renamed =>
        rintro name ⟨⟩
        exact isName "plus" (by decide)
    constructor
    case name => exact isName "util" (by decide)
    case access => exact ⟨List.cons_ne_nil _ _, symbol, trivial, trivial⟩
  case declarations =>
    simp only [doubledSum, List.forall_mem_singleton]
    have addend : Expression.WellFormed (.var "a" .none) := ⟨isName "a" (by decide), noAddress⟩
    constructor
    case name => exact isName "main" (by decide)
    case inputs =>
      simp only [List.forall_mem_singleton]
      exact ⟨isName "a" (by decide), trivial⟩
    case output =>
      rintro type ⟨⟩
      trivial
    case body =>
      exact ⟨⟨⟨addend, number "1" (by decide)⟩, number "2" (by decide)⟩, trivial⟩

theorem doubledSum_parse_print : doubledSum.WellFormed ∧
    ∃ parsed, File.parse (doubledSum.print fun _ => 1) none = .ok parsed ∧
      parsed.erase = doubledSum.erase :=
  ⟨doubledSum_wellFormed, File.parse_print (fun _ => 1) doubledSum doubledSum_wellFormed none⟩
end LeoFront

import LeoFront.Grammar.SyntaxError
import LeoFront.Proofs.Places.Expressions

namespace LeoFront

namespace Grammar
open LeoFront.Parser
variable {source : List Char}

theorem places_importSymbol : Places source importSymbol fun symbol => [symbol.outline] := by
  have other : Places source (do
      blanks
      word "as"
      blanks
      identifier) fun name => [name.outline] :=
    .of_lays (.skip fun _ => .skip fun _ => .skip fun _ => .last places_identifier fun _ => rfl)
  refine .node (.bind places_identifier fun symbol => .bind other.optional fun renamed =>
    .pure ⟨nofun, fun _ => ?_⟩)
  cases renamed <;> rfl

theorem places_packageOver {access : Parser Access} [Advances access]
    (places : Places source access fun access => [access.outline]) :
    Places source (packageOver access) fun package => [package.outline] := by
  refine .node (.bind places_identifier fun name => ?_)
  exact .skip fun _ => .skip fun _ => .skip fun _ => .bind places fun _ =>
    .pure ⟨nofun, fun _ => rfl⟩

theorem places_accessOver {access : Parser Access} [Advances access]
    (places : Places source access fun access => [access.outline]) :
    Places source (accessOver access) fun access => [access.outline] := by
  have accesses := places_separated places
  simp only [← Access.outlineEach_eq_flatMap] at accesses
  refine .or (.node ?_) (.or (.node ?_) (.or (.of_lays ?_) (.or (.of_lays ?_) .firstOf_nil)))
  · exact .skip fun _ => .pure ⟨fun _ => (consumes_literal (by decide)).bind, fun _ => rfl⟩
  · refine .skip fun _ => .skip fun _ => .bind accesses fun _ => ?_
    exact .skip fun _ => .skip fun _ => .skip fun _ => .skip fun _ =>
      .pure ⟨fun _ => (consumes_literal (by decide)).bind, fun _ => rfl⟩
  · exact .bind (places_packageOver places) fun _ => .pure rfl
  · exact .bind places_importSymbol fun _ => .pure rfl

theorem places_accessWithin (bound : List Char) :
    Places source (accessWithin bound) fun access => [access.outline] := by
  induction bound with
  | nil =>
    intro _ _ _ _ read
    cases read
  | cons _ bound ih => exact places_accessOver ih

theorem places_access : Places source access fun access => [access.outline] :=
  fun cursor value after on read =>
    places_accessWithin cursor.bound cursor value after on read

theorem places_importStatement :
    Places source importStatement fun statement => [statement.outline] := by
  refine .node (.skip fun _ => .skip fun _ => .bind (places_packageOver places_access) fun _ => ?_)
  exact .skip fun _ => .skip fun _ => .pure ⟨nofun, fun _ => rfl⟩

theorem places_returnStatement :
    Places source returnStatement fun statement => [statement.outline] := by
  refine .node (.skip fun _ => .skip fun _ => .bind places_expression fun _ => ?_)
  exact .skip fun _ => .skip fun _ => .pure ⟨nofun, fun _ => rfl⟩

theorem places_typeAnnotation : Places source typeAnnotation Ty.outlines := by
  refine .of_lays (.skip fun _ => .skip fun _ => .bind places_type fun _ => ?_)
  exact .skip fun _ => .pure rfl

theorem places_bindingStatement :
    Places source bindingStatement fun statement => [statement.outline] := by
  refine .node (.skip fun _ => .skip fun _ => .bind places_identifier fun _ => .skip fun _ => ?_)
  refine .bind places_typeAnnotation.optional fun _ => .skip fun _ => .skip fun _ => ?_
  exact .bind places_expression fun _ => .skip fun _ => .skip fun _ =>
    .pure ⟨nofun, fun _ => rfl⟩

theorem places_consoleStatement :
    Places source consoleStatement fun statement => [statement.outline] := by
  refine .node (.skip fun _ => .skip fun _ => .skip fun _ => .skip fun _ => .skip fun _ => ?_)
  refine .skip fun _ => .skip fun _ => .skip fun _ => ?_
  refine .bind (places_arguments places_expression) fun _ => ?_
  exact .skip fun _ => .skip fun _ => .skip fun _ => .skip fun _ =>
    .pure ⟨fun _ => (consumes_literal (by decide)).bind, fun _ => rfl⟩

theorem places_assignStatement :
    Places source assignStatement fun statement => [statement.outline] := by
  refine .node (.bind places_expression fun _ => .skip fun _ => .skip fun _ => .skip fun _ => ?_)
  exact .bind places_expression fun _ => .skip fun _ => .skip fun _ =>
    .pure ⟨nofun, fun _ => rfl⟩

theorem places_expressionStatement :
    Places source expressionStatement fun statement => [statement.outline] := by
  refine .node (.bind places_expression fun _ => ?_)
  exact .skip fun _ => .skip fun _ => .pure ⟨nofun, fun _ => rfl⟩

section
variable {block : Parser Block} {conditional : Parser Conditional} [Advances block]
  [Advances conditional] (blocks : Places source block fun block => [block.outline])
  (conditionals : Places source conditional fun conditional => [conditional.outline])
include blocks

theorem places_loopStatement :
    Places source (loopStatement block) fun statement => [statement.outline] := by
  refine .node (.skip fun _ => .skip fun _ => .bind places_identifier fun _ => ?_)
  refine .skip fun _ => .skip fun _ => .skip fun _ => .bind places_type fun type => ?_
  refine .skip fun _ => .skip fun _ => .skip fun _ => .bind places_expression fun _ => ?_
  refine .skip fun _ => .skip fun _ => .skip fun _ => .bind places_expression fun _ => ?_
  refine .skip fun _ => .bind blocks fun _ => .pure ⟨nofun, fun _ => ?_⟩
  cases type <;> rfl

include conditionals

theorem places_statementOver :
    Places source (statementOver block conditional) fun statement => [statement.outline] := by
  refine .or places_returnStatement (.or places_bindingStatement (.or (.of_lays ?_)
    (.or (places_loopStatement blocks) (.or places_consoleStatement (.or (.of_lays ?_)
    (.or places_assignStatement (.or places_expressionStatement .firstOf_nil)))))))
  · exact .bind conditionals fun _ => .pure rfl
  · exact .bind blocks fun _ => .pure rfl

theorem places_blockOver :
    Places source (blockOver (statementOver block conditional)) fun block => [block.outline] := by
  have statements : Places source (many do
      let statement ← statementOver block conditional
      blanks
      return statement) Statement.outlineEach := by
    have each : Places source (do
        let statement ← statementOver block conditional
        blanks
        return statement) fun statement => [statement.outline] :=
      .of_lays (.bind (places_statementOver blocks conditionals) fun _ => .skip fun _ => .pure rfl)
    have list := each.many
    simp only [← Statement.outlineEach_eq_flatMap] at list
    exact list
  refine .node (.skip fun _ => .skip fun _ => .bind statements fun _ => .skip fun _ => ?_)
  exact .pure ⟨fun _ => (consumes_literal (by decide)).bind, fun _ => rfl⟩

theorem places_otherwiseOver :
    Places source (otherwiseOver block conditional) Otherwise.outlines := by
  refine .of_lays (.skip fun _ => .skip fun _ => .skip fun _ => .last ?_ fun _ => rfl)
  refine .or (.of_lays ?_) (.or (.of_lays ?_) .firstOf_nil)
  · exact .bind conditionals fun _ => .pure rfl
  · exact .bind blocks fun _ => .pure rfl

theorem places_conditionalOver :
    Places source (conditionalOver block conditional) fun conditional => [conditional.outline] := by
  refine .node (.skip fun _ => .skip fun _ => .bind places_expression fun _ => .skip fun _ => ?_)
  refine .bind blocks fun _ => .bind (places_otherwiseOver blocks conditionals).optional
    fun otherwise => .pure ⟨nofun, fun _ => ?_⟩
  cases otherwise <;> simp [Conditional.outline, Otherwise.outlines]

end

theorem places_nested (bound : List Char) :
    (Places source (blockWithin bound) fun block => [block.outline]) ∧
      Places source (conditionalWithin bound) fun conditional => [conditional.outline] := by
  induction bound with
  | nil =>
    refine ⟨?_, ?_⟩ <;>
      intro _ _ _ _ read <;>
      cases read
  | cons _ bound ih =>
    obtain ⟨blocks, conditionals⟩ := ih
    rw [blockWithin, conditionalWithin]
    exact ⟨places_blockOver blocks conditionals, places_conditionalOver blocks conditionals⟩

theorem places_block : Places source block fun block => [block.outline] :=
  fun cursor value after on read => (places_nested cursor.bound).1 cursor value after on read

theorem places_member : Places source member Member.outlines := by
  refine .of_lays (.bind places_identifier fun _ => .skip fun _ => .skip fun _ => ?_)
  exact .skip fun _ => .bind places_type fun _ => .pure rfl

theorem places_circuit : Places source circuit fun circuit => [circuit.outline] := by
  refine .node (.skip fun _ => .skip fun _ => .bind places_identifier fun _ => ?_)
  refine .skip fun _ => .skip fun _ => .skip fun _ => ?_
  refine .bind (places_possiblyEmpty (places_separatedTrailing places_member)) fun _ => ?_
  exact .skip fun _ => .skip fun _ => .pure ⟨nofun, fun _ => rfl⟩

theorem places_input : Places source input fun input => [input.outline] := by
  refine .node (.skip fun _ => .bind places_identifier fun _ => .skip fun _ => .skip fun _ => ?_)
  exact .skip fun _ => .bind places_type fun _ => .pure ⟨nofun, fun _ => rfl⟩

theorem places_output : Places source output Ty.outlines := by
  refine .of_lays (.skip fun _ => .skip fun _ => .bind places_type fun _ => ?_)
  exact .skip fun _ => .pure rfl

theorem places_function : Places source function fun function => [function.outline] := by
  refine .node (.skip fun _ => .skip fun _ => .bind places_identifier fun _ => ?_)
  refine .skip fun _ => .skip fun _ => .skip fun _ => ?_
  refine .bind (places_possiblyEmpty (places_separatedTrailing places_input)) fun inputs => ?_
  refine .skip fun _ => .skip fun _ => .skip fun _ => .bind places_output.optional fun _ => ?_
  refine .bind places_block fun _ => .pure ⟨nofun, fun _ => ?_⟩
  simp [FunctionDecl.outline, List.map_eq_flatMap]

theorem places_item : Places source item fun item => [item.outline] := by
  refine .or (.of_lays ?_) (.or (.of_lays ?_) (.or (.of_lays ?_) .firstOf_nil))
  · exact .bind places_importStatement fun _ => .pure rfl
  · exact .bind places_circuit fun _ => .pure rfl
  · exact .bind places_function fun _ => .pure rfl

theorem places_file {cursor after : Cursor} {file : File} (on : cursor.On source)
    (read : (Grammar.file cursor).result = some (file, after)) :
    file.span = ⟨cursor.position, after.position⟩ ∧ ∃ items : List Item,
      items.filterMap Item.statement? = file.imports ∧
      items.filterMap Item.declaration? = file.declarations ∧
      Laid source cursor.position.offset after.position.offset (items.map Item.outline) := by
  obtain ⟨make, inner, rfl⟩ := spanned_some.mp read
  obtain ⟨_, middle, blank, inner⟩ := bind_some.mp inner
  obtain ⟨items, _, repeated, inner⟩ := bind_some.mp inner
  cases inner
  have each : Places source (do
      let item ← item
      blanks
      return item) fun item => [item.outline] :=
    .of_lays (.bind places_item fun _ => .skip fun _ => .pure rfl)
  have blank := Advances.reaches _ _ _ blank
  have laid := each.many _ _ _ (on.reaches blank) repeated
  refine ⟨rfl, items, rfl, rfl, ?_⟩
  rw [List.map_eq_flatMap]
  exact laid.mono blank.offset_le (Nat.le_refl _)

end Grammar

/-- Every node of a file stands in a source as it should; the file itself is the whole source. -/
structure File.Placed (source : List Char) (file : File) : Prop where
  whole : file.span = ⟨.behind [], .behind source⟩
  items : ∃ items : List Grammar.Item,
    items.filterMap Grammar.Item.statement? = file.imports ∧
    items.filterMap Grammar.Item.declaration? = file.declarations ∧
    (items.map Grammar.Item.outline).Pairwise (fun first second =>
      first.span.stop.offset ≤ second.span.start.offset) ∧
    ∀ item ∈ items, file.span.start.offset ≤ item.outline.span.start.offset ∧
      item.outline.span.stop.offset ≤ file.span.stop.offset ∧
      item.outline.Everywhere (Outline.Placed source)

theorem File.parse_placed {text : String} {name : Option String} {file : File}
    (parsed : File.parse text name = .ok file) : file.Placed text.toList := by
  unfold File.parse File.parseChars Parser.run at parsed
  dsimp only at parsed
  split at parsed
  · rename_i position read
    cases parsed
    have on := Cursor.On.ofSource text.toList
    obtain ⟨whole, items, imports, declarations, laid⟩ := Grammar.places_file on read
    have stop : position = .behind text.toList := by
      obtain ⟨before, all, stop⟩ := on.reaches (Advances.reaches _ _ _ read)
      rw [List.append_nil] at all
      rw [all]
      exact stop
    refine ⟨by rw [whole, stop]; rfl, items, imports, declarations, laid.pairwise, ?_⟩
    intro item member
    rw [whole]
    exact laid.mem (List.mem_map_of_mem member)
  · cases parsed
  · cases parsed

def smiling : String :=
  "import a.(b as c, *);\nfunction f(x: u8) -> T \x7b // 😀\n" ++
    "  return (\"😀\" == (-x)).y(1u8, g()) /* */ ;\x7d\n"

theorem smiling_placed :
    ∃ file, File.parse smiling none = .ok file ∧ file.Placed smiling.toList := by
  have accepted : (File.parse smiling none).isOk := by decide +kernel
  obtain ⟨file, parsed⟩ := exists_of_isOk accepted
  exact ⟨file, parsed, File.parse_placed parsed⟩

end LeoFront

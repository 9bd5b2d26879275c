import LeoFront.Grammar.File

namespace LeoFront

def Cursor.Reaches (cursor after : Cursor) : Prop :=
  ∃ read, cursor.rest = read ++ after.rest ∧ after.position = cursor.position.after read

namespace Cursor.Reaches
variable {cursor middle after : Cursor}

theorem refl (cursor : Cursor) : cursor.Reaches cursor := ⟨[], rfl, rfl⟩

theorem trans (first : cursor.Reaches middle) (second : middle.Reaches after) :
    cursor.Reaches after := by
  obtain ⟨before, rest, position⟩ := first
  obtain ⟨read, rest', position'⟩ := second
  refine ⟨before ++ read, ?_, ?_⟩
  · rw [rest, rest', List.append_assoc]
  · rw [position', position, Position.after_append]

theorem skip (cursor : Cursor) (count : Nat) : cursor.Reaches (cursor.skip count) :=
  ⟨cursor.rest.take count, (List.take_append_drop count cursor.rest).symm, rfl⟩

theorem length_le (reaches : cursor.Reaches after) : after.rest.length ≤ cursor.rest.length := by
  obtain ⟨read, rest, -⟩ := reaches
  rw [rest, List.length_append]
  exact Nat.le_add_left ..

end Cursor.Reaches

class Advances {α : Type} (p : Parser α) : Prop where
  reaches : ∀ cursor value after, (p cursor).result = some (value, after) → cursor.Reaches after

namespace Parser
variable {α β : Type} {p q : Parser α} {next : α → Parser β} {cursor after : Cursor}

theorem bind_some {value : β} : ((p >>= next) cursor).result = some (value, after) ↔
    ∃ first middle, (p cursor).result = some (first, middle) ∧
      (next first middle).result = some (value, after) := by
  change (Parser.bind p next cursor).result = _ ↔ _
  unfold Parser.bind
  rcases p cursor with ⟨_ | ⟨first, middle⟩, furthest⟩
  · simp
  · simp [and_assoc]

theorem or_some {value : α} (read : (p.or q cursor).result = some (value, after)) :
    (p cursor).result = some (value, after) ∨ (q cursor).result = some (value, after) := by
  unfold Parser.or at read
  rcases reply : p cursor with ⟨_ | success, furthest⟩
  · rw [reply] at read
    exact .inr read
  · rw [reply] at read
    exact .inl read

theorem spanned_some {p : Parser (Span → α)} {value : α} :
    (spanned p cursor).result = some (value, after) ↔
      ∃ make, (p cursor).result = some (make, after) ∧
        make ⟨cursor.position, after.position⟩ = value := by
  unfold spanned
  rcases p cursor with ⟨_ | ⟨make, middle⟩, furthest⟩
  · simp
  · simp only [Option.some.injEq, Prod.mk.injEq]
    constructor
    · rintro ⟨rfl, rfl⟩
      exact ⟨make, ⟨rfl, rfl⟩, rfl⟩
    · rintro ⟨_, ⟨rfl, rfl⟩, rfl⟩
      exact ⟨rfl, rfl⟩

instance advances_pure (value : α) : Advances (pure value : Parser α) where
  reaches cursor _ _ read := by
    cases read
    exact .refl cursor

instance advances_fail : Advances (fail : Parser α) where
  reaches _ _ _ read := by cases read

instance advances_bind [Advances p] [∀ value, Advances (next value)] : Advances (p >>= next) where
  reaches cursor value after read := by
    obtain ⟨first, middle, here, onward⟩ := bind_some.mp read
    exact (Advances.reaches cursor first middle here).trans
      (Advances.reaches middle value after onward)

-- where nothing uses the value, one instance will do: a family of them counts twice in the search
instance advances_seq {q : Parser β} [Advances p] [Advances q] : Advances (p >>= fun _ => q) :=
  advances_bind

instance advances_or [Advances p] [Advances q] : Advances (p.or q) where
  reaches cursor value after read := by
    rcases or_some read with first | second
    · exact Advances.reaches cursor value after first
    · exact Advances.reaches cursor value after second

instance advances_firstOf_nil : Advances (firstOf ([] : List (Parser α))) :=
  inferInstanceAs (Advances fail)

instance advances_firstOf_cons {others : List (Parser α)} [Advances p]
    [Advances (firstOf others)] : Advances (firstOf (p :: others)) :=
  inferInstanceAs (Advances (p.or (firstOf others)))

instance advances_optional [Advances p] : Advances (optional p) := by
  unfold optional
  infer_instance

instance advances_spanned {p : Parser (Span → α)} [Advances p] : Advances (spanned p) where
  reaches cursor _ after read := by
    obtain ⟨make, read, -⟩ := spanned_some.mp read
    exact Advances.reaches cursor make after read

instance advances_manyWithin [Advances p] (bound : List Char) : Advances (manyWithin p bound) := by
  induction bound with
  | nil => exact advances_pure []
  | cons _ bound ih =>
    unfold manyWithin
    infer_instance

instance advances_many [Advances p] : Advances (many p) where
  reaches cursor _ _ read := Advances.reaches (p := manyWithin p cursor.bound) _ _ _ read

instance advances_bounded {within : List Char → Parser α} [∀ bound, Advances (within bound)] :
    Advances (bounded within) where
  reaches cursor _ _ read := Advances.reaches (p := within cursor.bound) _ _ _ read

instance advances_literal (text : String) : Advances (literal text) where
  reaches cursor _ _ read := by
    unfold literal at read
    split at read <;> cases read
    exact .skip cursor _

instance advances_oneOf (set : CharClass) : Advances (oneOf set) where
  reaches cursor _ _ read := by
    unfold oneOf at read
    split at read
    · split at read <;> cases read
      exact .skip cursor _
    · cases read

instance advances_manyOf (set : CharClass) : Advances (manyOf set) where
  reaches cursor _ _ read := by
    cases read
    exact .skip cursor _

instance advances_someOf (set : CharClass) : Advances (someOf set) := by
  unfold someOf
  infer_instance

instance advances_guardRest (condition : List Char → Bool) : Advances (guardRest condition) where
  reaches cursor _ _ read := by
    unfold guardRest at read
    split at read <;> cases read
    exact .refl cursor

instance advances_notBefore (text : String) : Advances (notBefore text) :=
  inferInstanceAs (Advances (guardRest _))

theorem mem_manyWithin [Advances p] {bound : List Char} {values : List α}
    (read : (manyWithin p bound cursor).result = some (values, after)) {value : α}
    (member : value ∈ values) : ∃ here onward, cursor.Reaches here ∧
      (p here).result = some (value, onward) := by
  induction bound generalizing cursor values with
  | nil =>
    cases read
    cases member
  | cons _ bound ih =>
    unfold manyWithin at read
    rcases or_some read with more | done
    · obtain ⟨first, middle, here, more⟩ := bind_some.mp more
      obtain ⟨rest, final, later, more⟩ := bind_some.mp more
      cases more
      rcases List.mem_cons.mp member with rfl | among
      · exact ⟨cursor, middle, .refl cursor, here⟩
      · obtain ⟨place, onward, reaches, read⟩ := ih later among
        exact ⟨place, onward, (Advances.reaches _ _ _ here).trans reaches, read⟩
    · cases done
      cases member

theorem mem_many [Advances p] {values : List α}
    (read : (many p cursor).result = some (values, after)) {value : α} (member : value ∈ values) :
    ∃ here onward, cursor.Reaches here ∧ (p here).result = some (value, onward) :=
  mem_manyWithin read member

end Parser

namespace Grammar
open LeoFront.Parser
variable {α : Type}

instance advances_blanks : Advances blanks where
  reaches cursor _ _ read := by
    cases read
    exact .skip cursor _

instance advances_wordEnd : Advances wordEnd := inferInstanceAs (Advances (guardRest _))

instance advances_word (text : String) : Advances (word text) := by
  unfold word
  infer_instance

instance advances_oneText (choices : List (String × α)) : Advances (oneText choices) := by
  unfold oneText
  induction choices with
  | nil => exact advances_firstOf_nil
  | cons choice rest ih =>
    rw [List.map_cons]
    infer_instance

instance advances_oneWord (choices : List (String × α)) : Advances (oneWord choices) := by
  unfold oneWord
  infer_instance

instance advances_identifier : Advances identifier := by
  unfold identifier
  infer_instance

instance advances_separated {item : Parser α} [Advances item] : Advances (separated item) := by
  unfold separated
  infer_instance

instance advances_separatedTrailing {item : Parser α} [Advances item] :
    Advances (separatedTrailing item) := by
  unfold separatedTrailing
  infer_instance

instance advances_possiblyEmpty {items : Parser (List α)} [Advances items] :
    Advances (possiblyEmpty items) := by
  unfold possiblyEmpty
  infer_instance

instance advances_integerType : Advances integerType := by
  unfold integerType
  infer_instance

instance advances_integerWord : Advances integerWord := by
  unfold integerWord
  infer_instance

instance advances_type : Advances type := by
  unfold type
  infer_instance

instance advances_importSymbol : Advances importSymbol := by
  unfold importSymbol
  infer_instance

instance advances_packageOver {access : Parser Access} [Advances access] :
    Advances (packageOver access) := by
  unfold packageOver
  infer_instance

instance advances_accessOver {access : Parser Access} [Advances access] :
    Advances (accessOver access) := by
  unfold accessOver
  infer_instance

instance advances_accessWithin (bound : List Char) : Advances (accessWithin bound) := by
  induction bound with
  | nil => exact advances_fail
  | cons _ bound ih =>
    unfold accessWithin
    infer_instance

instance advances_access : Advances access := inferInstanceAs (Advances (bounded accessWithin))

instance advances_importStatement : Advances importStatement := by
  unfold importStatement
  infer_instance

instance advances_leftChain {operand : Parser Expression} {operator : Parser BinaryOp}
    [Advances operand] [Advances operator] : Advances (leftChain operand operator) := by
  unfold leftChain
  infer_instance

instance advances_additiveOperator : Advances additiveOperator := by
  unfold additiveOperator
  infer_instance

instance advances_multiplicativeOperator : Advances multiplicativeOperator := by
  unfold multiplicativeOperator
  infer_instance

instance advances_expressionOver {unary : Parser Expression} [Advances unary] :
    Advances (expressionOver unary) := by
  unfold expressionOver orOperator andOperator equalityOperator comparisonOperator
  infer_instance

instance advances_booleanLiteral : Advances booleanLiteral := by
  unfold booleanLiteral
  infer_instance

instance advances_addressLiteral : Advances addressLiteral := by
  unfold addressLiteral
  infer_instance

instance advances_numberSuffix : Advances numberSuffix := by
  unfold numberSuffix
  infer_instance

instance advances_numberLiteral : Advances numberLiteral := by
  unfold numberLiteral
  infer_instance

instance advances_stringLiteral : Advances stringLiteral := by
  unfold stringLiteral
  infer_instance

instance advances_variableName : Advances variableName := by
  unfold variableName
  infer_instance

instance advances_primary {expression : Parser Expression} [Advances expression] :
    Advances (primary expression) := by
  unfold primary
  infer_instance

instance advances_arguments {expression : Parser Expression} [Advances expression] :
    Advances (arguments expression) := by
  unfold arguments
  infer_instance

instance advances_suffix {expression : Parser Expression} [Advances expression] :
    Advances (suffix expression) := by
  unfold suffix
  infer_instance

instance advances_suffixed {expression : Parser Expression} [Advances expression] :
    Advances (suffixed expression) := by
  unfold suffixed
  infer_instance

instance advances_unaryWithin (bound : List Char) : Advances (unaryWithin bound) := by
  induction bound with
  | nil => exact advances_fail
  | cons _ bound ih =>
    unfold unaryWithin
    infer_instance

instance advances_expression : Advances expression :=
  inferInstanceAs (Advances (bounded fun bound => expressionOver (unaryWithin bound)))

instance advances_returnStatement : Advances returnStatement := by
  unfold returnStatement
  infer_instance

instance advances_typeAnnotation : Advances typeAnnotation := by
  unfold typeAnnotation
  infer_instance

instance advances_bindingStatement : Advances bindingStatement := by
  unfold bindingStatement
  infer_instance

instance advances_consoleStatement : Advances consoleStatement := by
  unfold consoleStatement
  infer_instance

instance advances_assignOperator : Advances assignOperator := by
  unfold assignOperator plainAssignment
  infer_instance

instance advances_assignStatement : Advances assignStatement := by
  unfold assignStatement
  infer_instance

instance advances_expressionStatement : Advances expressionStatement := by
  unfold expressionStatement
  infer_instance

instance advances_loopStatement {block : Parser Block} [Advances block] :
    Advances (loopStatement block) := by
  unfold loopStatement
  infer_instance

instance advances_statementOver {block : Parser Block} {conditional : Parser Conditional}
    [Advances block] [Advances conditional] : Advances (statementOver block conditional) := by
  unfold statementOver
  infer_instance

instance advances_blockOver {statement : Parser Statement} [Advances statement] :
    Advances (blockOver statement) := by
  unfold blockOver
  infer_instance

instance advances_otherwiseOver {block : Parser Block} {conditional : Parser Conditional}
    [Advances block] [Advances conditional] : Advances (otherwiseOver block conditional) := by
  unfold otherwiseOver
  infer_instance

instance advances_conditionalOver {block : Parser Block} {conditional : Parser Conditional}
    [Advances block] [Advances conditional] : Advances (conditionalOver block conditional) := by
  unfold conditionalOver
  infer_instance

theorem advances_nested (bound : List Char) :
    Advances (blockWithin bound) ∧ Advances (conditionalWithin bound) := by
  induction bound with
  | nil => exact ⟨advances_fail, advances_fail⟩
  | cons _ bound ih =>
    obtain ⟨block, conditional⟩ := ih
    rw [blockWithin, conditionalWithin]
    exact ⟨inferInstance, inferInstance⟩

instance advances_blockWithin (bound : List Char) : Advances (blockWithin bound) :=
  (advances_nested bound).1

instance advances_conditionalWithin (bound : List Char) : Advances (conditionalWithin bound) :=
  (advances_nested bound).2

instance advances_block : Advances block := inferInstanceAs (Advances (bounded blockWithin))

instance advances_member : Advances member := by
  unfold member
  infer_instance

instance advances_circuit : Advances circuit := by
  unfold circuit
  infer_instance

instance advances_mode : Advances mode := by
  unfold mode
  infer_instance

instance advances_input : Advances input := by
  unfold input
  infer_instance

instance advances_output : Advances output := by
  unfold output
  infer_instance

instance advances_function : Advances function := by
  unfold function
  infer_instance

instance advances_item : Advances item := by
  unfold item
  infer_instance

instance advances_file : Advances file := by
  unfold file
  infer_instance

end Grammar

end LeoFront

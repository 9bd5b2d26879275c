import LeoFront.Proofs.Grammar.Consumption

namespace LeoFront

inductive Piece where
  | token (text : List Char)
  | gap (text : List Char)
  deriving DecidableEq

namespace Piece

def text : Piece → List Char
  | .token text | .gap text => text

def textOf (pieces : List Piece) : List Char := pieces.flatMap text

@[simp] theorem textOf_nil : textOf [] = [] := rfl

@[simp] theorem textOf_cons (piece : Piece) (pieces : List Piece) :
    textOf (piece :: pieces) = piece.text ++ textOf pieces := rfl

@[simp] theorem textOf_append (pieces others : List Piece) :
    textOf (pieces ++ others) = textOf pieces ++ textOf others := by
  simp [textOf]

end Piece

open Piece (textOf)

/-- A parser with the pieces into which it divides what it reads. -/
class Traced {α : Type} (p : Parser α) where
  pieces : Cursor → List Piece
  whole : ∀ cursor value after, (p cursor).result = some (value, after) →
    cursor.rest = textOf (pieces cursor) ++ after.rest

namespace Parser
variable {α β : Type} {p q : Parser α} {next : α → Parser β}

@[reducible] def traced_token (p : Parser α) [Advances p] : Traced p where
  pieces cursor :=
    match (p cursor).result with
    | some (_, after) => [.token (cursor.rest.take (cursor.rest.length - after.rest.length))]
    | none => []
  whole cursor value after read := by
    obtain ⟨text, rest, -⟩ := Advances.reaches _ _ _ read
    simp [read, rest, Piece.text]

instance traced_pure (value : α) : Traced (pure value : Parser α) where
  pieces _ := []
  whole cursor _ _ read := by
    cases read
    rfl

instance traced_fail : Traced (fail : Parser α) where
  pieces _ := []
  whole _ _ _ read := by cases read

instance traced_bind [Traced p] [∀ value, Traced (next value)] : Traced (p >>= next) where
  pieces cursor :=
    match (p cursor).result with
    | some (value, after) => Traced.pieces p cursor ++ Traced.pieces (next value) after
    | none => []
  whole cursor value after read := by
    obtain ⟨first, middle, here, onward⟩ := bind_some.mp read
    simp only [here]
    rw [Piece.textOf_append, List.append_assoc, ← Traced.whole middle value after onward,
      ← Traced.whole cursor first middle here]

-- where nothing uses the value, one instance will do: a family of them counts twice in the search
instance traced_seq {q : Parser β} [Traced p] [Traced q] : Traced (p >>= fun _ => q) :=
  traced_bind

theorem pieces_bind [Traced p] [∀ value, Traced (next value)] {cursor middle : Cursor} {value : α}
    (here : (p cursor).result = some (value, middle)) :
    Traced.pieces (p >>= next) cursor =
      Traced.pieces p cursor ++ Traced.pieces (next value) middle := by
  simp only [Traced.pieces, here]

instance traced_or [Traced p] [Traced q] : Traced (p.or q) where
  pieces cursor :=
    match (p cursor).result with
    | some _ => Traced.pieces p cursor
    | none => Traced.pieces q cursor
  whole cursor value after read := by
    rw [result_or] at read
    rcases first : (p cursor).result with _ | success
    · rw [first] at read
      exact Traced.whole cursor value after read
    · rw [first] at read
      cases read
      exact Traced.whole cursor value after first

theorem pieces_or [Traced p] [Traced q] {cursor : Cursor} :
    Traced.pieces (p.or q) cursor =
      if (p cursor).result.isSome then Traced.pieces p cursor else Traced.pieces q cursor := by
  rcases here : (p cursor).result with _ | success <;> simp [Traced.pieces, here]

instance traced_firstOf_nil : Traced (firstOf ([] : List (Parser α))) :=
  inferInstanceAs (Traced fail)

instance traced_firstOf_cons {others : List (Parser α)} [Traced p] [Traced (firstOf others)] :
    Traced (firstOf (p :: others)) :=
  inferInstanceAs (Traced (p.or (firstOf others)))

instance traced_optional [Traced p] : Traced (optional p) :=
  inferInstanceAs (Traced ((p >>= fun value => pure (some value)).or (pure none)))

instance traced_spanned {p : Parser (Span → α)} [Traced p] : Traced (spanned p) where
  pieces := Traced.pieces p
  whole cursor value after read := by
    obtain ⟨make, inner, -⟩ := spanned_some.mp read
    exact Traced.whole cursor make after inner

instance traced_manyWithin [Traced p] : (bound : List Char) → Traced (manyWithin p bound)
  | [] => inferInstanceAs (Traced (pure []))
  | _ :: bound =>
    have := traced_manyWithin bound
    inferInstanceAs (Traced ((p >>= fun first => manyWithin p bound >>= fun rest =>
      pure (first :: rest)).or (pure [])))

theorem pieces_manyWithin [Traced p] {c : Char} {bound : List Char} {cursor after : Cursor}
    {values : List α} (read : (manyWithin p (c :: bound) cursor).result = some (values, after)) :
    (values = [] ∧ cursor = after ∧ Traced.pieces (manyWithin p (c :: bound)) cursor = []) ∨
    ∃ first middle rest, values = first :: rest ∧ (p cursor).result = some (first, middle) ∧
      (manyWithin p bound middle).result = some (rest, after) ∧
      Traced.pieces (manyWithin p (c :: bound)) cursor =
        Traced.pieces p cursor ++ Traced.pieces (manyWithin p bound) middle := by
  let more : Parser (List α) := do
    let first ← p
    let rest ← manyWithin p bound
    return first :: rest
  have divided : Traced.pieces (manyWithin p (c :: bound)) cursor =
      Traced.pieces (more.or (pure [])) cursor := rfl
  rw [pieces_or] at divided
  rw [manyWithin, result_or] at read
  rcases once : (more cursor).result with _ | success
  · rw [once] at read divided
    cases read
    exact .inl ⟨rfl, rfl, divided⟩
  · rw [once] at read divided
    cases read
    obtain ⟨first, middle, here, again⟩ := bind_some.mp once
    obtain ⟨rest, _, later, again⟩ := bind_some.mp again
    cases again
    rw [Option.isSome_some, if_pos rfl, pieces_bind here, pieces_bind later] at divided
    refine .inr ⟨first, middle, rest, rfl, here, later, divided.trans ?_⟩
    exact congrArg _ (List.append_nil _)

instance traced_many [Traced p] : Traced (many p) where
  pieces cursor := Traced.pieces (manyWithin p cursor.bound) cursor
  whole cursor value after read :=
    Traced.whole (p := manyWithin p cursor.bound) cursor value after read

instance traced_bounded {within : List Char → Parser α} [∀ bound, Traced (within bound)] :
    Traced (bounded within) where
  pieces cursor := Traced.pieces (within cursor.bound) cursor
  whole cursor value after read :=
    Traced.whole (p := within cursor.bound) cursor value after read

end Parser

namespace Grammar
open LeoFront.Parser
variable {α : Type}

instance traced_blanks : Traced blanks where
  pieces cursor := [.gap (cursor.rest.take (blankRun cursor.rest))]
  whole cursor _ _ read := by
    cases read
    simp [Piece.text, Cursor.skip]

instance traced_literal (text : String) : Traced (literal text) := traced_token _

instance traced_word (text : String) : Traced (word text) := traced_token _

instance traced_oneText (choices : List (String × α)) : Traced (oneText choices) := traced_token _

instance traced_oneWord (choices : List (String × α)) : Traced (oneWord choices) := traced_token _

instance traced_identifier : Traced identifier := traced_token _

instance traced_type : Traced type := traced_token _

instance traced_separated {item : Parser α} [Traced item] : Traced (separated item) := by
  delta separated
  infer_instance

instance traced_separatedTrailing {item : Parser α} [Traced item] :
    Traced (separatedTrailing item) := by
  delta separatedTrailing
  infer_instance

instance traced_possiblyEmpty {items : Parser (List α)} [Traced items] :
    Traced (possiblyEmpty items) := by
  delta possiblyEmpty
  infer_instance

instance traced_importSymbol : Traced importSymbol := by
  delta importSymbol
  infer_instance

instance traced_packageOver {access : Parser Access} [Traced access] :
    Traced (packageOver access) := by
  delta packageOver
  infer_instance

instance traced_accessOver {access : Parser Access} [Traced access] :
    Traced (accessOver access) := by
  delta accessOver
  infer_instance

instance traced_accessWithin : (bound : List Char) → Traced (accessWithin bound)
  | [] => inferInstanceAs (Traced fail)
  | _ :: bound =>
    have := traced_accessWithin bound
    inferInstanceAs (Traced (accessOver (accessWithin bound)))

instance traced_access : Traced access := inferInstanceAs (Traced (bounded accessWithin))

instance traced_importStatement : Traced importStatement := by
  delta importStatement
  infer_instance

instance traced_orOperator : Traced orOperator := traced_oneText _

instance traced_andOperator : Traced andOperator := traced_oneText _

instance traced_equalityOperator : Traced equalityOperator := traced_oneText _

instance traced_comparisonOperator : Traced comparisonOperator := traced_oneText _

instance traced_additiveOperator : Traced additiveOperator := traced_token _

instance traced_multiplicativeOperator : Traced multiplicativeOperator := traced_token _

instance traced_leftChain {operand : Parser Expression} {operator : Parser BinaryOp}
    [Traced operand] [Traced operator] : Traced (leftChain operand operator) := by
  delta leftChain
  infer_instance

instance traced_expressionOver {unary : Parser Expression} [Traced unary] :
    Traced (expressionOver unary) := by
  delta expressionOver
  infer_instance

instance traced_booleanLiteral : Traced booleanLiteral := traced_token _

instance traced_addressLiteral : Traced addressLiteral := traced_token _

instance traced_numberLiteral : Traced numberLiteral := traced_token _

instance traced_stringLiteral : Traced stringLiteral := traced_token _

instance traced_variableName : Traced variableName := traced_token _

instance traced_primary {expression : Parser Expression} [Traced expression] :
    Traced (primary expression) := by
  delta primary
  infer_instance

instance traced_arguments {expression : Parser Expression} [Traced expression] :
    Traced (arguments expression) := by
  delta arguments
  infer_instance

instance traced_suffix {expression : Parser Expression} [Traced expression] :
    Traced (suffix expression) := by
  delta suffix
  infer_instance

instance traced_suffixed {expression : Parser Expression} [Traced expression] :
    Traced (suffixed expression) := by
  delta suffixed
  infer_instance

instance traced_unaryWithin : (bound : List Char) → Traced (unaryWithin bound)
  | [] => inferInstanceAs (Traced fail)
  | _ :: bound =>
    have := traced_unaryWithin bound
    inferInstanceAs (Traced (firstOf [
      spanned do
        let op ← oneText [("!", UnaryOp.not), ("-", .negate)]
        blanks
        let operand ← unaryWithin bound
        return .unary op operand,
      suffixed (expressionOver (unaryWithin bound))]))

instance traced_expression : Traced expression :=
  inferInstanceAs (Traced (bounded fun bound => expressionOver (unaryWithin bound)))

instance traced_returnStatement : Traced returnStatement := by
  delta returnStatement
  infer_instance

instance traced_typeAnnotation : Traced typeAnnotation := by
  delta typeAnnotation
  infer_instance

instance traced_bindingStatement : Traced bindingStatement := by
  delta bindingStatement
  infer_instance

instance traced_consoleStatement : Traced consoleStatement := by
  delta consoleStatement
  infer_instance

instance traced_assignOperator : Traced assignOperator := traced_token _

instance traced_assignStatement : Traced assignStatement := by
  delta assignStatement
  infer_instance

instance traced_expressionStatement : Traced expressionStatement := by
  delta expressionStatement
  infer_instance

instance traced_loopStatement {block : Parser Block} [Traced block] :
    Traced (loopStatement block) := by
  delta loopStatement
  infer_instance

instance traced_statementOver {block : Parser Block} {conditional : Parser Conditional}
    [Traced block] [Traced conditional] : Traced (statementOver block conditional) := by
  delta statementOver
  infer_instance

instance traced_blockOver {statement : Parser Statement} [Traced statement] :
    Traced (blockOver statement) := by
  delta blockOver
  infer_instance

instance traced_otherwiseOver {block : Parser Block} {conditional : Parser Conditional}
    [Traced block] [Traced conditional] : Traced (otherwiseOver block conditional) := by
  delta otherwiseOver
  infer_instance

instance traced_conditionalOver {block : Parser Block} {conditional : Parser Conditional}
    [Traced block] [Traced conditional] : Traced (conditionalOver block conditional) := by
  delta conditionalOver
  infer_instance

mutual

instance traced_blockWithin : (bound : List Char) → Traced (blockWithin bound)
  | [] => inferInstanceAs (Traced fail)
  | _ :: bound =>
    have := traced_blockWithin bound
    have := traced_conditionalWithin bound
    inferInstanceAs (Traced (blockOver (statementOver (blockWithin bound)
      (conditionalWithin bound))))

instance traced_conditionalWithin : (bound : List Char) → Traced (conditionalWithin bound)
  | [] => inferInstanceAs (Traced fail)
  | _ :: bound =>
    have := traced_blockWithin bound
    have := traced_conditionalWithin bound
    inferInstanceAs (Traced (conditionalOver (blockWithin bound) (conditionalWithin bound)))

end

instance traced_block : Traced block := inferInstanceAs (Traced (bounded blockWithin))

instance traced_member : Traced member := by
  delta member
  infer_instance

instance traced_circuit : Traced circuit := by
  delta circuit
  infer_instance

instance traced_mode : Traced mode := traced_token _

instance traced_input : Traced input := by
  delta input
  infer_instance

instance traced_output : Traced output := by
  delta output
  infer_instance

instance traced_function : Traced function := by
  delta function
  infer_instance

instance traced_item : Traced item := by
  delta item
  infer_instance

instance traced_file : Traced file := by
  delta file
  infer_instance

end Grammar

/-- The tokens and gaps of a source that can be read. -/
def File.pieces (source : String) : List Piece :=
  Traced.pieces Grammar.file (.ofSource source.toList)

example : File.pieces "import a.b ; // end" = [.gap [], .token "import".toList, .gap [' '],
    .token ['a'], .gap [], .token ['.'], .gap [], .token ['b'], .gap [' '], .token [';'],
    .gap " // end".toList] := by
  decide +kernel

end LeoFront

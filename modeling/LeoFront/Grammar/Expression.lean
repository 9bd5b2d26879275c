import LeoFront.Grammar.Type
import LeoFront.Syntax.Expression

/-!
# The grammar of expressions

Binary operators bind in six levels and associate to the left; unary operators bind tighter, calls
and member accesses tighter still. Only unary operands, arguments and parentheses nest, so the whole
grammar is built over the parser of unary expressions (`unaryWithin`).
-/

namespace LeoFront.Grammar
open LeoFront.Parser

def leftChain (operand : Parser Expression) (operator : Parser BinaryOp) : Parser Expression := do
  let first ← operand
  let rest ← many do
    blanks
    let op ← operator
    blanks
    let right ← operand
    return (op, right)
  return rest.foldl (fun left next => .binary next.1 left next.2 (left.span.through next.2.span)) first

def orOperator : Parser BinaryOp := oneText [("||", .or)]

def andOperator : Parser BinaryOp := oneText [("&&", .and)]

def equalityOperator : Parser BinaryOp := oneText [("==", .eq), ("!=", .ne)]

def comparisonOperator : Parser BinaryOp :=
  oneText [("<=", .le), (">=", .ge), ("<", .lt), (">", .gt)]

def additiveOperator : Parser BinaryOp :=
  firstOf [
    do
      literal "+"
      notBefore "="
      return .add,
    do
      literal "-"
      notBefore "="
      notBefore ">"
      return .sub]

def multiplicativeOperator : Parser BinaryOp := do
  let op ← oneText [("*", .mul), ("/", .div)]
  notBefore "="
  return op

def expressionOver (unary : Parser Expression) : Parser Expression :=
  let multiplicative := leftChain unary multiplicativeOperator
  let additive := leftChain multiplicative additiveOperator
  let comparison := leftChain additive comparisonOperator
  let equality := leftChain comparison equalityOperator
  let conjunction := leftChain equality andOperator
  leftChain conjunction orOperator

def addressPart : CharClass := ⟨[('a', 'z'), ('0', '9')], false⟩

def stringPart : CharClass := ⟨[('"', '"')], true⟩

def fieldSuffixes : List (String × Primitive) :=
  [("field", .field), ("group", .group), ("scalar", .scalar)]

def numberSuffix : Parser Primitive :=
  firstOf [integerWord, oneWord fieldSuffixes]

def booleanLiteral : Parser (Span → Expression) := do
  let value ← oneWord [("true", "true"), ("false", "false")]
  return .literal value .boolean

def addressLiteral : Parser (Span → Expression) := do
  literal "aleo1"
  let rest ← someOf addressPart
  return .literal ("aleo1" ++ String.ofList rest) .address

def numberLiteral : Parser (Span → Expression) := do
  let digits ← someOf digit
  let type ← numberSuffix
  return .literal (String.ofList digits) type

def stringLiteral : Parser (Span → Expression) := do
  literal "\""
  let value ← manyOf stringPart
  literal "\""
  return .literal (String.ofList value) .string

def variableName : Parser Expression := do
  let name ← identifier
  return .var name.name name.span

/-- An expression that no operator joins. A parenthesised expression keeps the span it has without
its parentheses. -/
def primary (expression : Parser Expression) : Parser Expression :=
  firstOf [
    spanned booleanLiteral,
    spanned addressLiteral,
    spanned numberLiteral,
    spanned stringLiteral,
    variableName,
    do
      literal "("
      blanks
      let inner ← expression
      blanks
      literal ")"
      return inner]

def arguments (expression : Parser Expression) : Parser (List Expression) :=
  possiblyEmpty (separated expression)

inductive Suffix where
  | call (arguments : List Expression)
  | access (member : Identifier)

def Suffix.apply (target : Expression) (suffix : Suffix × Position) : Expression :=
  let span : Span := ⟨target.span.start, suffix.2⟩
  match suffix.1 with
  | .call arguments => .call target arguments span
  | .access member => .access target member span

def suffix (expression : Parser Expression) : Parser (Suffix × Position) :=
  firstOf [
    spanned do
      literal "("
      blanks
      let arguments ← arguments expression
      blanks
      literal ")"
      return fun span => (.call arguments, span.stop),
    spanned do
      literal "."
      blanks
      let member ← identifier
      return fun span => (.access member, span.stop)]

def suffixed (expression : Parser Expression) : Parser Expression := do
  let target ← primary expression
  let suffixes ← many do
    blanks
    suffix expression
  return suffixes.foldl Suffix.apply target

def unaryWithin : (bound : List Char) → Parser Expression
  | [] => fail
  | _ :: bound =>
    firstOf [
      spanned do
        let op ← oneText [("!", UnaryOp.not), ("-", .negate)]
        blanks
        let operand ← unaryWithin bound
        return .unary op operand,
      suffixed (expressionOver (unaryWithin bound))]

def expression : Parser Expression :=
  bounded fun bound => expressionOver (unaryWithin bound)

end LeoFront.Grammar

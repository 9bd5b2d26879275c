import LeoFront.Grammar.Expression
import LeoFront.Syntax.Statement

namespace LeoFront.Grammar
open LeoFront.Parser

def returnStatement : Parser Statement :=
  spanned do
    word "return"
    blanks
    let value ← expression
    blanks
    literal ";"
    return fun span => .ret value span

def typeAnnotation : Parser Ty := do
  literal ":"
  blanks
  let type ← type
  blanks
  return type

def bindingStatement : Parser Statement :=
  spanned do
    let kind ← oneWord [("let", BindingKind.mutable), ("const", .constant)]
    blanks
    let name ← identifier
    blanks
    let type ← optional typeAnnotation
    literal "="
    blanks
    let value ← expression
    blanks
    literal ";"
    return fun span => .binding ⟨kind, name, type, value, span⟩

def consoleFunctions : List (String × ConsoleFunction) :=
  [("log", .log), ("assert", .assert), ("error", .error)]

def consoleStatement : Parser Statement :=
  spanned do
    literal "console"
    blanks
    literal "."
    blanks
    let function ← oneText consoleFunctions
    blanks
    literal "("
    blanks
    let arguments ← arguments expression
    blanks
    literal ")"
    blanks
    literal ";"
    return fun span => .console function arguments span

def plainAssignment : Parser AssignOp := do
  literal "="
  notBefore "="
  return .set

def assignOperator : Parser AssignOp :=
  firstOf [oneText [("+=", .add), ("-=", .sub), ("*=", .mul), ("/=", .div)], plainAssignment]

def assignStatement : Parser Statement :=
  spanned do
    let place ← expression
    blanks
    let op ← assignOperator
    blanks
    let value ← expression
    blanks
    literal ";"
    return fun span => .assign op place value span

def expressionStatement : Parser Statement :=
  spanned do
    let value ← expression
    blanks
    literal ";"
    return fun span => .expression value span

def loopStatement (block : Parser Block) : Parser Statement :=
  spanned do
    word "for"
    blanks
    let name ← identifier
    blanks
    literal ":"
    blanks
    let type ← type
    blanks
    word "in"
    blanks
    let start ← expression
    blanks
    literal ".."
    blanks
    let stop ← expression
    blanks
    let body ← block
    return fun span => .loop ⟨name, type, start, stop⟩ body span

def statementOver (block : Parser Block) (conditional : Parser Conditional) : Parser Statement :=
  firstOf [
    returnStatement,
    bindingStatement,
    do return .conditional (← conditional),
    loopStatement block,
    consoleStatement,
    do return .block (← block),
    assignStatement,
    expressionStatement]

def blockOver (statement : Parser Statement) : Parser Block :=
  spanned do
    literal "\x7b"
    blanks
    let statements ← many do
      let statement ← statement
      blanks
      return statement
    literal "\x7d"
    return fun span => .mk statements span

def otherwiseOver (block : Parser Block) (conditional : Parser Conditional) : Parser Otherwise := do
  blanks
  word "else"
  blanks
  firstOf [
    do return .chain (← conditional),
    do return .block (← block)]

def conditionalOver (block : Parser Block) (conditional : Parser Conditional) :
    Parser Conditional :=
  spanned do
    word "if"
    blanks
    let condition ← expression
    blanks
    let body ← block
    let otherwise ← optional (otherwiseOver block conditional)
    return fun span => .mk condition body (otherwise.getD .nothing) span

mutual

def blockWithin : (bound : List Char) → Parser Block
  | [] => fail
  | _ :: bound => blockOver (statementOver (blockWithin bound) (conditionalWithin bound))

def conditionalWithin : (bound : List Char) → Parser Conditional
  | [] => fail
  | _ :: bound => conditionalOver (blockWithin bound) (conditionalWithin bound)

end

def block : Parser Block := bounded blockWithin

end LeoFront.Grammar

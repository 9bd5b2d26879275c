import LeoFront.Syntax.Expression

namespace LeoFront

inductive BindingKind where
  | mutable
  | constant
  deriving DecidableEq

def BindingKind.text : BindingKind → String
  | .mutable => "let"
  | .constant => "const"

inductive AssignOp where
  | set | add | sub | mul | div
  deriving DecidableEq

def AssignOp.text : AssignOp → String
  | .set => "="
  | .add => "+="
  | .sub => "-="
  | .mul => "*="
  | .div => "/="

inductive ConsoleFunction where
  | log | assert | error
  deriving DecidableEq

def ConsoleFunction.text : ConsoleFunction → String
  | .log => "log"
  | .assert => "assert"
  | .error => "error"

structure Binding where
  kind : BindingKind
  name : Identifier
  type : Option Ty
  value : Expression
  span : Span

structure LoopHead where
  name : Identifier
  type : Ty
  start : Expression
  stop : Expression

mutual

inductive Statement where
  | ret (expression : Expression) (span : Span)
  | binding (binding : Binding)
  | assign (op : AssignOp) (place value : Expression) (span : Span)
  | conditional (conditional : Conditional)
  | loop (head : LoopHead) (body : Block) (span : Span)
  | console (function : ConsoleFunction) (arguments : List Expression) (span : Span)
  | expression (expression : Expression) (span : Span)
  | block (block : Block)

inductive Block where
  | mk (statements : List Statement) (span : Span)

inductive Conditional where
  | mk (condition : Expression) (body : Block) (otherwise : Otherwise) (span : Span)

inductive Otherwise where
  | nothing
  | block (block : Block)
  | chain (conditional : Conditional)

end

def Block.statements : Block → List Statement
  | .mk statements _ => statements

def Block.span : Block → Span
  | .mk _ span => span

end LeoFront

import LeoFront.Syntax.Type

namespace LeoFront

inductive BinaryOp where
  | or | and | eq | ne | lt | le | gt | ge | add | sub | mul | div
  deriving DecidableEq

inductive UnaryOp where
  | not | negate
  deriving DecidableEq

def BinaryOp.text : BinaryOp → String
  | .or => "||"
  | .and => "&&"
  | .eq => "=="
  | .ne => "!="
  | .lt => "<"
  | .le => "<="
  | .gt => ">"
  | .ge => ">="
  | .add => "+"
  | .sub => "-"
  | .mul => "*"
  | .div => "/"

def UnaryOp.text : UnaryOp → String
  | .not => "!"
  | .negate => "-"

inductive Expression where
  /-- A literal: its text, without quotes or type suffix, and its type. -/
  | literal (value : String) (type : Primitive) (span : Span)
  | var (name : String) (span : Span)
  | binary (op : BinaryOp) (left right : Expression) (span : Span)
  | unary (op : UnaryOp) (operand : Expression) (span : Span)
  | call (callee : Expression) (arguments : List Expression) (span : Span)
  | access (target : Expression) (member : Identifier) (span : Span)

def Expression.span : Expression → Span
  | literal _ _ span | var _ span | binary _ _ _ span | unary _ _ span | call _ _ span
  | access _ _ span => span

end LeoFront

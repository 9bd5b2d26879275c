import LeoFront.Proofs.RoundTrip.Tree

namespace LeoFront

abbrev Token := List Char

mutual

def spaced : List Token → List Char
  | [] => []
  | token :: rest => token ++ gap rest

def gap : List Token → List Char
  | [] => []
  | token :: rest => ' ' :: (token ++ gap rest)

end

def commas : List (List Token) → List Token
  | [] => []
  | first :: rest => first ++ rest.flatMap fun tokens => ",".toList :: tokens

def Ty.tokens : Ty → List Token
  | .primitive type => [type.text.toList]
  | .named identifier => [identifier.name.toList]
  | .unresolved => []

def Primitive.literal (value : String) : Primitive → Token
  | .boolean | .address => value.toList
  | .string => '"' :: value.toList ++ ['"']
  | type => value.toList ++ type.text.toList

/-- How tight a binary operator binds. Unary operators have the level 6, calls and member accesses
the level 7. -/
def BinaryOp.level : BinaryOp → Nat
  | .or => 0
  | .and => 1
  | .eq | .ne => 2
  | .lt | .le | .gt | .ge => 3
  | .add | .sub => 4
  | .mul | .div => 5

def parenthesized : Nat → List Token → List Token
  | 0, tokens => tokens
  | count + 1, tokens => "(".toList :: parenthesized count tokens ++ [")".toList]

def needed (own required : Nat) : Nat := if own < required then 1 else 0

/-- A number for each place in a tree. A place is given by the numbers of the branches on the way to
it, the last one first. -/
abbrev AtPlaces := List Nat → Nat

mutual

/-- The tokens of an expression at a place that requires a level. -/
def Expression.tokens (extra : AtPlaces) (place : List Nat) (required : Nat) :
    Expression → List Token
  | .literal value type _ => parenthesized (extra place) [type.literal value]
  | .var name _ => parenthesized (extra place) [name.toList]
  | .binary op left right _ =>
    parenthesized (extra place + needed op.level required)
      (left.tokens extra (0 :: place) op.level ++
        op.text.toList :: right.tokens extra (1 :: place) (op.level + 1))
  | .unary op operand _ =>
    parenthesized (extra place + needed 6 required)
      (op.text.toList :: operand.tokens extra (0 :: place) 6)
  | .call callee arguments _ =>
    parenthesized (extra place + needed 7 required)
      (callee.tokens extra (0 :: place) 7 ++
        "(".toList :: commas (Expression.tokensEach extra place 1 arguments) ++ [")".toList])
  | .access target member _ =>
    parenthesized (extra place + needed 7 required)
      (target.tokens extra (0 :: place) 7 ++ [".".toList, member.name.toList])

def Expression.tokensEach (extra : AtPlaces) (place : List Nat) (branch : Nat) :
    List Expression → List (List Token)
  | [] => []
  | first :: rest =>
    first.tokens extra (branch :: place) 0 :: Expression.tokensEach extra place (branch + 1) rest

end

def annotated (mark : String) : Option Ty → List Token
  | none => []
  | some type => mark.toList :: type.tokens

mutual

def Statement.tokens (extra : AtPlaces) (place : List Nat) : Statement → List Token
  | .ret value _ => "return".toList :: value.tokens extra (0 :: place) 0 ++ [";".toList]
  | .binding binding =>
    binding.kind.text.toList :: binding.name.name.toList :: annotated ":" binding.type ++
      "=".toList :: binding.value.tokens extra (0 :: place) 0 ++ [";".toList]
  | .assign op target value _ =>
    target.tokens extra (0 :: place) 0 ++
      op.text.toList :: value.tokens extra (1 :: place) 0 ++ [";".toList]
  | .conditional conditional => conditional.tokens extra (0 :: place)
  | .loop head body _ =>
    "for".toList :: head.name.name.toList :: ":".toList :: head.type.tokens ++
      "in".toList :: head.start.tokens extra (0 :: place) 0 ++
      "..".toList :: head.stop.tokens extra (1 :: place) 0 ++ body.tokens extra (2 :: place)
  | .console function arguments _ =>
    "console".toList :: ".".toList :: function.text.toList :: "(".toList ::
      commas (Expression.tokensEach extra place 0 arguments) ++ [")".toList, ";".toList]
  | .expression value _ => value.tokens extra (0 :: place) 0 ++ [";".toList]
  | .block block => block.tokens extra (0 :: place)

def Statement.tokensEach (extra : AtPlaces) (place : List Nat) (branch : Nat) :
    List Statement → List Token
  | [] => []
  | first :: rest =>
    first.tokens extra (branch :: place) ++ Statement.tokensEach extra place (branch + 1) rest

def Block.tokens (extra : AtPlaces) (place : List Nat) : Block → List Token
  | .mk statements _ =>
    "\x7b".toList :: Statement.tokensEach extra place 0 statements ++ ["\x7d".toList]

def Conditional.tokens (extra : AtPlaces) (place : List Nat) : Conditional → List Token
  | .mk condition body otherwise _ =>
    "if".toList :: condition.tokens extra (0 :: place) 0 ++ body.tokens extra (1 :: place) ++
      otherwise.tokens extra (2 :: place)

def Otherwise.tokens (extra : AtPlaces) (place : List Nat) : Otherwise → List Token
  | .nothing => []
  | .block block => "else".toList :: block.tokens extra (0 :: place)
  | .chain conditional => "else".toList :: conditional.tokens extra (0 :: place)

end

def ImportSymbol.tokens (symbol : ImportSymbol) : List Token :=
  symbol.symbol.name.toList ::
    match symbol.renamed with
    | none => []
    | some name => ["as".toList, name.name.toList]

mutual

def Access.tokens : Access → List Token
  | .star _ => ["*".toList]
  | .symbol taken => taken.tokens
  | .subPackage name access _ => name.name.toList :: ".".toList :: access.tokens
  | .multiple accesses _ => "(".toList :: commas (Access.tokensEach accesses) ++ [")".toList]

def Access.tokensEach : List Access → List (List Token)
  | [] => []
  | first :: rest => first.tokens :: Access.tokensEach rest

end

def Import.tokens (statement : Import) : List Token :=
  "import".toList :: statement.package.name.name.toList :: ".".toList ::
    statement.package.access.tokens ++ [";".toList]

def Member.tokens (member : Member) : List Token :=
  member.identifier.name.toList :: ":".toList :: member.type.tokens

def Circuit.tokens (circuit : Circuit) : List Token :=
  (if circuit.isRecord then "record" else "circuit").toList :: circuit.identifier.name.toList ::
    "\x7b".toList :: commas (circuit.members.map Member.tokens) ++ ["\x7d".toList]

def Input.tokens (input : Input) : List Token :=
  input.mode.text.toList :: input.identifier.name.toList :: ":".toList :: input.type.tokens

def FunctionDecl.tokens (extra : AtPlaces) (place : List Nat) (function : FunctionDecl) :
    List Token :=
  "function".toList :: function.identifier.name.toList :: "(".toList ::
    commas (function.inputs.map Input.tokens) ++
    ")".toList :: annotated "->" function.output ++ function.body.tokens extra place

def Declaration.tokens (extra : AtPlaces) (place : List Nat) : Declaration → List Token
  | .circuit declared => declared.tokens
  | .function declared => declared.tokens extra place

def Declaration.tokensEach (extra : AtPlaces) (branch : Nat) : List Declaration → List Token
  | [] => []
  | first :: rest => first.tokens extra [branch] ++ Declaration.tokensEach extra (branch + 1) rest

def File.tokens (extra : AtPlaces) (file : File) : List Token :=
  file.imports.flatMap Import.tokens ++ Declaration.tokensEach extra 0 file.declarations

/-- The text of a file, with some redundant parentheses at each place. -/
def File.print (extra : AtPlaces) (file : File) : String :=
  String.ofList (spaced (file.tokens extra))

end LeoFront

import LeoFront.Syntax.Import
import LeoFront.Syntax.Statement

namespace LeoFront

structure Member where
  identifier : Identifier
  type : Ty
  deriving DecidableEq

structure Circuit where
  identifier : Identifier
  members : List Member
  isRecord : Bool
  span : Span
  deriving DecidableEq

inductive Mode where
  | hidden | shown | constant
  deriving DecidableEq

def Mode.text : Mode → String
  | .hidden => "private"
  | .shown => "public"
  | .constant => "const"

structure Input where
  identifier : Identifier
  mode : Mode
  type : Ty
  span : Span
  deriving DecidableEq

structure FunctionDecl where
  identifier : Identifier
  inputs : List Input
  output : Option Ty
  body : Block
  span : Span

inductive Declaration where
  | circuit (circuit : Circuit)
  | function (function : FunctionDecl)

structure File where
  imports : List Import
  declarations : List Declaration
  span : Span

end LeoFront

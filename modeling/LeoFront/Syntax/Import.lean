import LeoFront.Syntax.Type

namespace LeoFront

structure ImportSymbol where
  symbol : Identifier
  renamed : Option Identifier
  span : Span
  deriving DecidableEq

def ImportSymbol.localName (symbol : ImportSymbol) : String :=
  match symbol.renamed with
  | some name => name.name
  | none => symbol.symbol.name

inductive Access where
  | star (span : Span)
  | symbol (symbol : ImportSymbol)
  | subPackage (name : Identifier) (access : Access) (span : Span)
  | multiple (accesses : List Access) (span : Span)

structure Package where
  name : Identifier
  access : Access
  span : Span

structure Import where
  package : Package
  span : Span

end LeoFront

import LeoFront.Grammar.Token
import LeoFront.Syntax.Import

namespace LeoFront.Grammar
open LeoFront.Parser

def importSymbol : Parser ImportSymbol :=
  spanned do
    let symbol ← identifier
    let renamed ← optional do
      blanks
      word "as"
      blanks
      identifier
    return fun span => ⟨symbol, renamed, span⟩

def packageOver (access : Parser Access) : Parser Package :=
  spanned do
    let name ← identifier
    blanks
    literal "."
    blanks
    let access ← access
    return fun span => ⟨name, access, span⟩

def accessOver (access : Parser Access) : Parser Access :=
  firstOf [
    spanned do
      literal "*"
      return .star,
    spanned do
      literal "("
      blanks
      let accesses ← separated access
      blanks
      let _ ← optional (literal ",")
      blanks
      literal ")"
      return .multiple accesses,
    do
      let package ← packageOver access
      return .subPackage package.name package.access package.span,
    do return .symbol (← importSymbol)]

def accessWithin : (bound : List Char) → Parser Access
  | [] => fail
  | _ :: bound => accessOver (accessWithin bound)

def access : Parser Access := bounded accessWithin

def importStatement : Parser Import :=
  spanned do
    word "import"
    blanks
    let package ← packageOver access
    blanks
    literal ";"
    return fun span => ⟨package, span⟩

end LeoFront.Grammar

import LeoFront.Grammar.Import
import LeoFront.Grammar.Statement
import LeoFront.Syntax.File

namespace LeoFront.Grammar
open LeoFront.Parser

def member : Parser Member := do
  let name ← identifier
  blanks
  literal ":"
  blanks
  let type ← type
  return ⟨name, type⟩

def circuit : Parser Circuit :=
  spanned do
    let isRecord ← oneWord [("circuit", false), ("record", true)]
    blanks
    let name ← identifier
    blanks
    literal "\x7b"
    blanks
    let members ← possiblyEmpty (separatedTrailing member)
    blanks
    literal "\x7d"
    return fun span => ⟨name, members, isRecord, span⟩

def mode : Parser Mode :=
  oneWord [("public", .shown), ("private", .hidden), ("const", .constant)]

def input : Parser Input :=
  spanned do
    let mode ← optional do
      let mode ← mode
      blanks
      return mode
    let name ← identifier
    blanks
    literal ":"
    blanks
    let type ← type
    return fun span => ⟨name, mode.getD .hidden, type, span⟩

def output : Parser Ty := do
  literal "->"
  blanks
  let type ← type
  blanks
  return type

def function : Parser FunctionDecl :=
  spanned do
    word "function"
    blanks
    let name ← identifier
    blanks
    literal "("
    blanks
    let inputs ← possiblyEmpty (separatedTrailing input)
    blanks
    literal ")"
    blanks
    let output ← optional output
    let body ← block
    return fun span => ⟨name, inputs, output, body, span⟩

inductive Item where
  | statement (imported : Import)
  | declaration (declared : Declaration)

def Item.statement? : Item → Option Import
  | .statement imported => some imported
  | .declaration _ => none

def Item.declaration? : Item → Option Declaration
  | .statement _ => none
  | .declaration declared => some declared

def item : Parser Item :=
  firstOf [
    do return .statement (← importStatement),
    do return .declaration (.circuit (← circuit)),
    do return .declaration (.function (← function))]

def file : Parser File :=
  spanned do
    blanks
    let items ← many do
      let item ← item
      blanks
      return item
    return fun span => ⟨items.filterMap Item.statement?, items.filterMap Item.declaration?, span⟩

end LeoFront.Grammar

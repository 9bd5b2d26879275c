import LeoFront.Parser.Basic
import LeoFront.Syntax.Type

namespace LeoFront.Grammar
open LeoFront.Parser

def wordStart : CharClass := ⟨[('a', 'z'), ('A', 'Z'), ('_', '_')], false⟩

def wordPart : CharClass := ⟨[('a', 'z'), ('A', 'Z'), ('0', '9'), ('_', '_')], false⟩

def digit : CharClass := ⟨[('0', '9')], false⟩

def isBlank (c : Char) : Bool :=
  c = ' ' || c = '\t' || c = '\r' || c = '\n'

mutual

def blankRun : List Char → Nat
  | '/' :: '/' :: rest => 2 + lineCommentRun rest
  | '/' :: '*' :: rest =>
    match blockCommentRun rest with
    | some length => 2 + length
    | none => 0
  | c :: rest => if isBlank c then 1 + blankRun rest else 0
  | [] => 0

def lineCommentRun : List Char → Nat
  | c :: rest => if c = '\n' then 1 + blankRun rest else 1 + lineCommentRun rest
  | [] => 0

def blockCommentRun : List Char → Option Nat
  | '*' :: '/' :: rest => some (2 + blankRun rest)
  | _ :: rest => (blockCommentRun rest).map (1 + ·)
  | [] => none

end

/-- Skips blanks and comments. Where they end, more of them would have been accepted. -/
def blanks : Parser Unit := fun cursor =>
  let after := cursor.skip (blankRun cursor.rest)
  ⟨some ((), after), .one after.position.offset .whitespace⟩

def keywords : List String :=
  ["as", "circuit", "console", "const", "else", "false", "for", "function", "if", "import", "in",
    "let", "private", "public", "record", "return", "true"]

def leadingWord : List Char → List Char
  | c :: rest => if wordStart.contains c then c :: rest.takeWhile wordPart.contains else []
  | [] => []

def wordEnd : Parser Unit :=
  guardRest fun rest => !(rest.head?.any wordPart.contains)

def word (text : String) : Parser Unit := do
  literal text
  wordEnd

def oneText {α : Type} (choices : List (String × α)) : Parser α :=
  firstOf (choices.map fun choice => do
    literal choice.1
    return choice.2)

def oneWord {α : Type} (choices : List (String × α)) : Parser α := do
  let value ← oneText choices
  wordEnd
  return value

def identifier : Parser Identifier :=
  spanned do
    guardRest fun rest => !(keywords.contains (String.ofList (leadingWord rest)))
    let first ← oneOf wordStart
    let rest ← manyOf wordPart
    return fun span => ⟨String.ofList (first :: rest), span⟩

def separated {α : Type} (item : Parser α) : Parser (List α) := do
  let first ← item
  let rest ← many do
    blanks
    literal ","
    blanks
    item
  return first :: rest

def separatedTrailing {α : Type} (item : Parser α) : Parser (List α) := do
  let items ← separated item
  let _ ← optional do
    blanks
    literal ","
  return items

def possiblyEmpty {α : Type} (items : Parser (List α)) : Parser (List α) := do
  return (← optional items).getD []

end LeoFront.Grammar

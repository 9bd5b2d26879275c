import LeoFront.Parser.Expectation
import LeoFront.Source.Span

/-!
# Parsers with ordered choice

A parser reads from a cursor and either fails or gives a value and the cursor after it. Whatever it
does, it also reports the furthest failure it met, including failures on ways it gave up.

* Choice is ordered: `firstOf` commits to the first alternative that succeeds.
* `many` repeats greedily and never gives back; each repetition must consume something, so there are at
  most as many as characters are left.
* `bounded` closes a recursive rule over a bound on its nesting; each level must consume something, so
  there are again at most as many as characters are left.

A bound is a text, and what counts is its length: the text that is left serves as its own bound.
-/

namespace LeoFront

structure Cursor where
  rest : List Char
  position : Position
  deriving DecidableEq

namespace Cursor

def ofSource (source : List Char) : Cursor := ⟨source, .start⟩

def skip (cursor : Cursor) (count : Nat) : Cursor :=
  ⟨cursor.rest.drop count, cursor.position.after (cursor.rest.take count)⟩

def bound (cursor : Cursor) : List Char := ' ' :: cursor.rest

end Cursor

structure Reply (α : Type) where
  result : Option (α × Cursor)
  furthest : Furthest

def Parser (α : Type) : Type := Cursor → Reply α

namespace Parser

def run {α : Type} (p : Parser α) (cursor : Cursor) : Reply α := p cursor

protected def pure {α : Type} (value : α) : Parser α :=
  fun cursor => ⟨some (value, cursor), .none⟩

protected def bind {α β : Type} (p : Parser α) (next : α → Parser β) : Parser β := fun cursor =>
  match p cursor with
  | ⟨none, furthest⟩ => ⟨none, furthest⟩
  | ⟨some (value, after), furthest⟩ =>
    let reply := next value after
    ⟨reply.result, furthest.merge reply.furthest⟩

instance : Monad Parser where
  pure := Parser.pure
  bind := Parser.bind

def fail {α : Type} : Parser α := fun _ => ⟨none, .none⟩

def or {α : Type} (p q : Parser α) : Parser α := fun cursor =>
  match p cursor with
  | ⟨some success, furthest⟩ => ⟨some success, furthest⟩
  | ⟨none, furthest⟩ =>
    let reply := q cursor
    ⟨reply.result, furthest.merge reply.furthest⟩

def firstOf {α : Type} : List (Parser α) → Parser α
  | [] => fail
  | p :: rest => p.or (firstOf rest)

def optional {α : Type} (p : Parser α) : Parser (Option α) :=
  (do return some (← p)).or (pure none)

def manyWithin {α : Type} (p : Parser α) : (bound : List Char) → Parser (List α)
  | [] => pure []
  | _ :: bound => (do
      let first ← p
      let rest ← manyWithin p bound
      return first :: rest).or (pure [])

def many {α : Type} (p : Parser α) : Parser (List α) :=
  fun cursor => manyWithin p cursor.bound cursor

/-- A recursive rule, from its approximations by bounded nesting. Every level of nesting consumes a
character, so no more levels can succeed than characters are left. -/
def bounded {α : Type} (within : (bound : List Char) → Parser α) : Parser α :=
  fun cursor => within cursor.bound cursor

def spanned {α : Type} (p : Parser (Span → α)) : Parser α := fun cursor =>
  match p cursor with
  | ⟨none, furthest⟩ => ⟨none, furthest⟩
  | ⟨some (value, after), furthest⟩ =>
    ⟨some (value ⟨cursor.position, after.position⟩, after), furthest⟩

def literal (text : String) : Parser Unit := fun cursor =>
  if text.toList.isPrefixOf cursor.rest then
    ⟨some ((), cursor.skip text.toList.length), .none⟩
  else ⟨none, .one cursor.position.offset (.literal text)⟩

def oneOf (set : CharClass) : Parser Char := fun cursor =>
  match cursor.rest with
  | c :: _ =>
    if set.contains c then ⟨some (c, cursor.skip 1), .none⟩
    else ⟨none, .one cursor.position.offset (.charClass set)⟩
  | [] => ⟨none, .one cursor.position.offset (.charClass set)⟩

def manyOf (set : CharClass) : Parser (List Char) := fun cursor =>
  let run := cursor.rest.takeWhile set.contains
  let after := cursor.skip run.length
  ⟨some (run, after), .one after.position.offset (.charClass set)⟩

def someOf (set : CharClass) : Parser (List Char) := do
  let first ← oneOf set
  let rest ← manyOf set
  return first :: rest

def guardRest (condition : List Char → Bool) : Parser Unit := fun cursor =>
  if condition cursor.rest then ⟨some ((), cursor), .none⟩ else ⟨none, .none⟩

def notBefore (text : String) : Parser Unit :=
  guardRest fun rest => !text.toList.isPrefixOf rest

end Parser

end LeoFront

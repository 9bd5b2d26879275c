import LeoFront.Grammar.File
import LeoFront.Text.Message

namespace LeoFront

structure SyntaxError where
  sourceName : String
  source : List Char
  expected : List Expectation
  /-- The number of UTF-16 units before the failure. -/
  offset : Nat

namespace SyntaxError
open Text (Message)

def splitAtUnits (units : Nat) : List Char → List Char × List Char
  | [] => ([], [])
  | c :: rest =>
    if units = 0 then ([], c :: rest)
    else
      let (front, back) := splitAtUnits (units - Text.charUnits16 c) rest
      (c :: front, back)

def before (error : SyntaxError) : List Char := (splitAtUnits error.offset error.source).1

def found (error : SyntaxError) : Option Char := (splitAtUnits error.offset error.source).2.head?

def position (error : SyntaxError) : Position := Position.start.after error.before

def hexDigit (n : Nat) : Char :=
  if n < 10 then Char.ofNat ('0'.toNat + n) else Char.ofNat ('A'.toNat + n - 10)

/-- A character between double quotes. Control characters, quotes and backslashes are escaped, and of
a character outside the basic plane only the first unit is shown. -/
def quotedChar (c : Char) : Message :=
  let shown : Message :=
    if c = '\\' then .ofString "\\\\"
    else if c = '"' then .ofString "\\\""
    else if c = '\x00' then .ofString "\\0"
    else if c = '\t' then .ofString "\\t"
    else if c = '\n' then .ofString "\\n"
    else if c = '\r' then .ofString "\\r"
    else if c.toNat < 0x20 || (0x7F ≤ c.toNat && c.toNat ≤ 0x9F) then
      ⟨[.char '\\', .char 'x', .char (hexDigit (c.toNat / 16)), .char (hexDigit (c.toNat % 16))]⟩
    else .firstUnit c
  .ofString "\"" ++ shown ++ .ofString "\""

def foundText (error : SyntaxError) : Message :=
  match error.found with
  | some c => quotedChar c
  | none => .ofString "end of input"

def lines : List Char → List (List Char)
  | [] => [[]]
  | '\r' :: '\n' :: rest => [] :: lines rest
  | c :: rest =>
    if c = '\n' || c = '\r' then [] :: lines rest
    else
      match lines rest with
      | first :: others => (c :: first) :: others
      | [] => [[c]]

def line (error : SyntaxError) : List Char :=
  ((lines error.source)[error.position.line - 1]?).getD []

/-- The number of marks under the shown line: one for the character found, or up to the end of the
line if that character is a line feed, and at least one unless the line is too short. -/
def markCount (error : SyntaxError) : Nat :=
  match error.found with
  | some '\n' =>
    let last := Text.units16 error.line + 1
    if last = error.position.column then 1 else last - error.position.column
  | _ => 1

def message (error : SyntaxError) : Message :=
  let lineNumber := toString error.position.line
  let margin := "".pushn ' ' lineNumber.length
  .ofString ("Error: Expected " ++ Expectation.listing error.expected ++ " but ") ++
  error.foundText ++
  .ofString (String.join [
    " found.\n --> ", error.sourceName, ":", lineNumber, ":", toString error.position.column,
    "\n", margin, " |\n",
    lineNumber, " | ", String.ofList error.line, "\n",
    margin, " | ", "".pushn ' ' (error.position.column - 1), "".pushn '^' error.markCount])

end SyntaxError

namespace File

def unnamedSource : String := "<input>"

def parseChars (source : List Char) (sourceName : Option String) : Except SyntaxError File :=
  let reply := Grammar.file.run (.ofSource source)
  let error (furthest : Furthest) : SyntaxError :=
    ⟨sourceName.getD unnamedSource, source, furthest.expected, furthest.offset⟩
  match reply.result with
  | some (file, ⟨[], _⟩) => .ok file
  | some (_, stopped) =>
    .error (error (reply.furthest.merge (.one stopped.position.offset .endOfInput)))
  | none => .error (error reply.furthest)

def parse (source : String) (sourceName : Option String) : Except SyntaxError File :=
  parseChars source.toList sourceName

end File

section Outcome
variable {ε α β : Type} {outcome : Except ε α}

theorem exists_of_isOk (succeeds : outcome.isOk) : ∃ value, outcome = .ok value := by
  cases outcome with
  | error _ => cases succeeds
  | ok value => exact ⟨value, rfl⟩

theorem exists_of_view {view : α → β} {seen : β} (viewed : outcome.toOption.map view = some seen) :
    ∃ value, outcome = .ok value ∧ view value = seen := by
  cases outcome with
  | error _ => cases viewed
  | ok value => exact ⟨value, rfl, Option.some.inj viewed⟩

end Outcome

end LeoFront

import LeoFront.Text.Message

namespace LeoFront.Report
open Text (Glyph Message)

inductive Json where
  | string (text : Message)
  | number (value : Nat)
  | array (items : List Json)
  | object (fields : List (String × Json))

namespace Json

def hexDigit (n : Nat) : Char :=
  if n < 10 then Char.ofNat ('0'.toNat + n) else Char.ofNat ('a'.toNat + n - 10)

def unitEscape (unit : Nat) : List Char :=
  ['\\', 'u', hexDigit (unit / 0x1000), hexDigit (unit / 0x100 % 0x10), hexDigit (unit / 0x10 % 0x10),
    hexDigit (unit % 0x10)]

def escape : Glyph → List Char
  | .half unit => unitEscape unit.toNat
  | .char c =>
    if c = '"' then ['\\', '"']
    else if c = '\\' then ['\\', '\\']
    else if c = '\x08' then ['\\', 'b']
    else if c = '\x0c' then ['\\', 'f']
    else if c = '\n' then ['\\', 'n']
    else if c = '\r' then ['\\', 'r']
    else if c = '\t' then ['\\', 't']
    else if c.toNat < 0x20 then unitEscape c.toNat
    else [c]

def quoted (text : Message) : String :=
  String.ofList ('"' :: text.glyphs.flatMap escape ++ ['"'])

def newline (level : Nat) : String := "\n" ++ "".pushn ' ' (2 * level)

def enclosed (level : Nat) (left right : String) : List String → String
  | [] => left ++ right
  | items =>
    left ++ newline (level + 1) ++ ("," ++ newline (level + 1)).intercalate items ++ newline level ++
      right

mutual

def render (level : Nat) : Json → String
  | string text => quoted text
  | number value => toString value
  | array items => enclosed level "[" "]" (renderItems (level + 1) items)
  | object fields => enclosed level "\x7b" "\x7d" (renderFields (level + 1) fields)

def renderItems (level : Nat) : List Json → List String
  | [] => []
  | item :: rest => render level item :: renderItems level rest

def renderFields (level : Nat) : List (String × Json) → List String
  | [] => []
  | (key, value) :: rest =>
    (quoted (.ofString key) ++ ": " ++ render level value) :: renderFields level rest

end

def text (value : Json) : String := value.render 0

end Json

end LeoFront.Report

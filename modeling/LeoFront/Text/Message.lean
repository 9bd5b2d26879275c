import LeoFront.Text.Utf16

namespace LeoFront.Text

inductive Glyph where
  | char (c : Char)
  | half (unit : UInt16)
  deriving DecidableEq

structure Message where
  glyphs : List Glyph
  deriving DecidableEq

namespace Message

def ofString (text : String) : Message := ⟨text.toList.map .char⟩

def toString (message : Message) : String :=
  String.ofList (message.glyphs.map fun
    | .char c => c
    | .half _ => '\uFFFD')

def append (first second : Message) : Message := ⟨first.glyphs ++ second.glyphs⟩

instance : Append Message := ⟨append⟩

def firstUnit (c : Char) : Message :=
  if c.toNat < 0x10000 then ⟨[.char c]⟩ else ⟨[.half (highSurrogate c)]⟩

@[simp] theorem toString_ofString (text : String) : (ofString text).toString = text := by
  simp [toString, ofString, Function.comp_def]

end Message

end LeoFront.Text

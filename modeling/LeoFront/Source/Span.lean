import LeoFront.Text.Utf16

namespace LeoFront

structure Position where
  line : Nat
  column : Nat
  offset : Nat
  deriving DecidableEq

namespace Position

def start : Position := ⟨1, 1, 0⟩

def next (p : Position) (c : Char) : Position :=
  if c = '\n' then ⟨p.line + 1, 1, p.offset + 1⟩
  else ⟨p.line, p.column + Text.charUnits16 c, p.offset + Text.charUnits16 c⟩

def after (p : Position) (text : List Char) : Position :=
  text.foldl next p

@[simp] theorem after_nil (p : Position) : p.after [] = p := rfl

@[simp] theorem after_cons (p : Position) (c : Char) (rest : List Char) :
    p.after (c :: rest) = (p.next c).after rest := rfl

@[simp] theorem after_append (p : Position) (s t : List Char) :
    p.after (s ++ t) = (p.after s).after t := by
  simp [after, List.foldl_append]

theorem next_offset (p : Position) (c : Char) :
    (p.next c).offset = p.offset + Text.charUnits16 c := by
  unfold next
  split
  · next h => subst h; rfl
  · rfl

theorem after_offset (p : Position) (text : List Char) :
    (p.after text).offset = p.offset + Text.units16 text := by
  induction text generalizing p with
  | nil => simp
  | cons c rest ih => simp [ih, next_offset, Nat.add_assoc]

end Position

structure Span where
  start : Position
  stop : Position
  deriving DecidableEq

namespace Span

def none : Span := ⟨⟨0, 0, 0⟩, ⟨0, 0, 0⟩⟩

def through (first last : Span) : Span := ⟨first.start, last.stop⟩

end Span

end LeoFront

namespace LeoFront.Text

def charUnits16 (c : Char) : Nat :=
  if c.toNat < 0x10000 then 1 else 2

def units16 : List Char → Nat
  | [] => 0
  | c :: rest => charUnits16 c + units16 rest

theorem charUnits16_pos (c : Char) : 0 < charUnits16 c := by
  unfold charUnits16
  split <;> decide

@[simp] theorem units16_nil : units16 [] = 0 := rfl

@[simp] theorem units16_cons (c : Char) (rest : List Char) :
    units16 (c :: rest) = charUnits16 c + units16 rest := rfl

@[simp] theorem units16_append (s t : List Char) :
    units16 (s ++ t) = units16 s + units16 t := by
  induction s with
  | nil => simp
  | cons c rest ih => simp [ih, Nat.add_assoc]

def highSurrogate (c : Char) : UInt16 :=
  UInt16.ofNat (0xD800 + (c.toNat - 0x10000) / 0x400)

end LeoFront.Text

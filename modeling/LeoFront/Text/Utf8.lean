/-!
# UTF-8

Bytes are decoded one by one. A byte that cannot go on with the character before it ends that
character as a fault and is looked at afresh, so each longest stretch that begins a character but does
not complete it is one fault.

* `decodeLossy` writes the replacement character for each fault.
* `decodeStrict` refuses texts with faults.
-/

namespace LeoFront.Text.Utf8

def encode (text : String) : List UInt8 := text.toList.flatMap String.utf8EncodeChar

structure Pending where
  missing : Nat
  low : Nat
  high : Nat
  bits : Nat

def Pending.idle : Pending := ⟨0, 0x80, 0xBF, 0⟩

def first (byte : Nat) : List (Option Char) × Pending :=
  if byte < 0x80 then ([some (Char.ofNat byte)], .idle)
  else if byte < 0xC2 then ([none], .idle)
  else if byte < 0xE0 then ([], ⟨1, 0x80, 0xBF, byte % 0x20⟩)
  else if byte < 0xF0 then
    ([], ⟨2, if byte = 0xE0 then 0xA0 else 0x80, if byte = 0xED then 0x9F else 0xBF, byte % 0x10⟩)
  else if byte < 0xF5 then
    ([], ⟨3, if byte = 0xF0 then 0x90 else 0x80, if byte = 0xF4 then 0x8F else 0xBF, byte % 0x08⟩)
  else ([none], .idle)

def step (pending : Pending) (byte : Nat) : List (Option Char) × Pending :=
  if pending.missing = 0 then first byte
  else if pending.low ≤ byte && byte ≤ pending.high then
    let bits := pending.bits * 0x40 + byte % 0x40
    if pending.missing = 1 then ([some (Char.ofNat bits)], .idle)
    else ([], ⟨pending.missing - 1, 0x80, 0xBF, bits⟩)
  else
    let (found, next) := first byte
    (none :: found, next)

def decodeFrom (pending : Pending) : List UInt8 → List (Option Char)
  | [] => if pending.missing = 0 then [] else [none]
  | byte :: rest =>
    let (found, next) := step pending byte.toNat
    found ++ decodeFrom next rest

def decode (bytes : List UInt8) : List (Option Char) := decodeFrom .idle bytes

def decodeLossy (bytes : List UInt8) : String :=
  String.ofList ((decode bytes).map (·.getD '\uFFFD'))

/-- The text of some bytes, if they have no fault. One byte order mark at the start is dropped. -/
def decodeStrict (bytes : List UInt8) : Option String :=
  ((decode bytes).mapM id).map fun
    | '\uFEFF' :: rest => String.ofList rest
    | all => String.ofList all

end LeoFront.Text.Utf8

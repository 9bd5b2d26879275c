namespace LeoFront

structure CharClass where
  ranges : List (Char × Char)
  inverted : Bool
  deriving DecidableEq

namespace CharClass

def contains (set : CharClass) (c : Char) : Bool :=
  set.ranges.any (fun range => range.1 ≤ c && c ≤ range.2) != set.inverted

def text (set : CharClass) : String :=
  let parts := set.ranges.map fun range =>
    if range.1 = range.2 then String.ofList [range.1] else String.ofList [range.1, '-', range.2]
  "[" ++ (if set.inverted then "^" else "") ++ String.join parts ++ "]"

end CharClass

inductive Expectation where
  | literal (text : String)
  | charClass (set : CharClass)
  | whitespace
  | endOfInput
  deriving DecidableEq

namespace Expectation

def quoted (text : String) : String :=
  let escaped := text.toList.flatMap fun c => if c = '"' || c = '\\' then ['\\', c] else [c]
  String.ofList ('"' :: escaped ++ ['"'])

def text : Expectation → String
  | literal text => quoted text
  | charClass set => set.text
  | whitespace => "whitespace"
  | endOfInput => "end of input"

def insertSorted (text : String) : List String → List String
  | [] => [text]
  | first :: rest =>
    if text < first then text :: first :: rest
    else if text = first then first :: rest
    else first :: insertSorted text rest

def texts (expected : List Expectation) : List String :=
  expected.foldr (fun e sorted => insertSorted e.text sorted) []

def enumeration : List String → String
  | [] => ""
  | [a] => a
  | [a, b] => a ++ " or " ++ b
  | many => String.join (many.dropLast.map (· ++ ", ")) ++ "or " ++ many.getLastD ""

def listing (expected : List Expectation) : String :=
  enumeration (texts expected)

end Expectation

/-- The furthest offset at which a terminal failed, with all that was expected there. -/
structure Furthest where
  offset : Nat
  expected : List Expectation
  deriving DecidableEq

namespace Furthest

def none : Furthest := ⟨0, []⟩

def one (offset : Nat) (expectation : Expectation) : Furthest := ⟨offset, [expectation]⟩

def merge (earlier later : Furthest) : Furthest :=
  if earlier.offset < later.offset then later
  else if later.offset < earlier.offset then earlier
  else ⟨earlier.offset, earlier.expected ++ later.expected⟩

@[simp] theorem merge_none (f : Furthest) : f.merge none = f := by
  cases f with
  | mk offset expected =>
    simp only [merge, none, Nat.not_lt_zero, if_false, List.append_nil]
    split <;> rfl

@[simp] theorem none_merge (f : Furthest) : none.merge f = f := by
  cases f with
  | mk offset expected =>
    simp only [merge, none, Nat.not_lt_zero, if_false, List.nil_append]
    split
    · rfl
    · next h => rw [Nat.eq_zero_of_not_pos h]

end Furthest

end LeoFront

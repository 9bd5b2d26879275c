import LeoFront.Grammar.Token

namespace LeoFront.Grammar
open LeoFront.Parser

def primitiveWords : List (String × Primitive) :=
  [("address", .address), ("bool", .boolean), ("field", .field), ("group", .group),
    ("scalar", .scalar), ("string", .string)]

def integerWidths : List (String × IntegerWidth) :=
  [("128", .bits128), ("16", .bits16), ("32", .bits32), ("64", .bits64), ("8", .bits8)]

def integerSign : CharClass := ⟨[('i', 'i'), ('u', 'u')], false⟩

def integerType : Parser IntegerType := do
  let sign ← oneOf integerSign
  let width ← oneText integerWidths
  return ⟨sign = 'i', width⟩

def integerWord : Parser Primitive := do
  let type ← integerType
  wordEnd
  return .integer type

def type : Parser Ty :=
  firstOf [
    do return .primitive (← oneWord primitiveWords),
    do return .primitive (← integerWord),
    do return .named (← identifier)]

end LeoFront.Grammar

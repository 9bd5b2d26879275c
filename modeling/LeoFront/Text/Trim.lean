namespace LeoFront.Text

def dropSuffix? (text suffix : List Char) : Option (List Char) :=
  if suffix ≠ [] && suffix.isSuffixOf text then some (text.take (text.length - suffix.length))
  else none

def trimWithin (suffix : List Char) : Nat → List Char → List Char
  | 0, text => text
  | bound + 1, text =>
    match dropSuffix? text suffix with
    | some shorter => trimWithin suffix bound shorter
    | none => text

def trimEndMatches (text suffix : String) : String :=
  String.ofList (trimWithin suffix.toList text.length text.toList)

end LeoFront.Text

namespace LeoFront.Path

def splitAt {α : Type} [DecidableEq α] (separator : α) : List α → List (List α)
  | [] => [[]]
  | a :: rest =>
    if a = separator then [] :: splitAt separator rest
    else
      match splitAt separator rest with
      | first :: others => (a :: first) :: others
      | [] => [[a]]

def components (path : String) : List (List Char) := splitAt '/' path.toList

def isAbsolute (path : String) : Bool := path.toList.head? = some '/'

def endsWithSeparator (path : String) : Bool := path.toList.getLast? = some '/'

def reduceStep (absolute : Bool) (kept : List (List Char)) (component : List Char) :
    List (List Char) :=
  if component = [] || component = ['.'] then kept
  else if component = ['.', '.'] then
    match kept with
    | [] => if absolute then [] else [component]
    | last :: before => if last = ['.', '.'] then component :: kept else before
  else component :: kept

def reduce (absolute : Bool) (components : List (List Char)) : List (List Char) :=
  (components.foldl (reduceStep absolute) []).reverse

def joined : List (List Char) → List Char
  | [] => []
  | [last] => last
  | first :: rest => first ++ '/' :: joined rest

def normalize (path : String) : String :=
  if path = "" then "."
  else
    let absolute := isAbsolute path
    let body := joined (reduce absolute (components path))
    if body = [] then
      if absolute then "/" else if endsWithSeparator path then "./" else "."
    else
      String.ofList ((if absolute then ['/'] else []) ++ body ++
        (if endsWithSeparator path then ['/'] else []))

def join (directory path : String) : String :=
  if directory = "" then (if path = "" then "." else normalize path)
  else if path = "" then normalize directory
  else normalize (directory ++ "/" ++ path)

def absolute (path : String) : String :=
  String.ofList ('/' :: joined (reduce true (components path)))

/-- The name at the end of a path, without the separators after it and without a suffix, unless the
suffix is the whole name. Of the suffix as a path nothing remains, and a name that is itself only the
end of the suffix keeps the separators after it. -/
def baseName (path suffix : String) : String :=
  if path = suffix then ""
  else
    let backwards := path.toList.reverse
    let separators := backwards.takeWhile (· = '/')
    let name := ((backwards.dropWhile (· = '/')).takeWhile (· ≠ '/')).reverse
    let ending := suffix.toList
    if ending.isSuffixOf name then
      if name = ending then String.ofList name
      else String.ofList (name.take (name.length - ending.length))
    else if name.isSuffixOf ending && ending.length ≤ path.length then
      String.ofList (name ++ separators)
    else String.ofList name

end LeoFront.Path

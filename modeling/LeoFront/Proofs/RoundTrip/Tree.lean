import LeoFront.Grammar.File

namespace LeoFront

namespace Grammar

def IsWord : List Char → Prop
  | [] => False
  | first :: rest => wordStart.contains first = true ∧ ∀ c ∈ rest, wordPart.contains c = true

structure IsName (name : String) : Prop where
  word : IsWord name.toList
  free : name ∉ keywords

instance (word : List Char) : Decidable (IsWord word) :=
  match word with
  | [] => .isFalse id
  | first :: rest =>
    decidable_of_iff (wordStart.contains first = true ∧ rest.all wordPart.contains = true)
      (and_congr_right fun _ => List.all_eq_true)

theorem isName_iff {name : String} : IsName name ↔ IsWord name.toList ∧ name ∉ keywords :=
  ⟨fun isName => ⟨isName.word, isName.free⟩, fun both => ⟨both.1, both.2⟩⟩

instance (name : String) : Decidable (IsName name) := decidable_of_iff _ isName_iff.symm

def StartsAddress (name : String) : Prop :=
  ∃ c rest, name.toList = "aleo1".toList ++ c :: rest ∧ addressPart.contains c = true

end Grammar

open Grammar (IsName StartsAddress addressPart digit)

def Identifier.erase (identifier : Identifier) : Identifier := ⟨identifier.name, .none⟩

def Ty.erase : Ty → Ty
  | .named identifier => .named identifier.erase
  | .primitive type => .primitive type
  | .unresolved => .unresolved

mutual

def Expression.erase : Expression → Expression
  | .literal value type _ => .literal value type .none
  | .var name _ => .var name .none
  | .binary op left right _ => .binary op left.erase right.erase .none
  | .unary op operand _ => .unary op operand.erase .none
  | .call callee arguments _ => .call callee.erase (Expression.eraseEach arguments) .none
  | .access target member _ => .access target.erase member.erase .none

def Expression.eraseEach : List Expression → List Expression
  | [] => []
  | first :: rest => first.erase :: Expression.eraseEach rest

end

def Binding.erase (binding : Binding) : Binding :=
  ⟨binding.kind, binding.name.erase, binding.type.map Ty.erase, binding.value.erase, .none⟩

def LoopHead.erase (head : LoopHead) : LoopHead :=
  ⟨head.name.erase, head.type.erase, head.start.erase, head.stop.erase⟩

mutual

def Statement.erase : Statement → Statement
  | .ret value _ => .ret value.erase .none
  | .binding binding => .binding binding.erase
  | .assign op place value _ => .assign op place.erase value.erase .none
  | .conditional conditional => .conditional conditional.erase
  | .loop head body _ => .loop head.erase body.erase .none
  | .console function arguments _ => .console function (Expression.eraseEach arguments) .none
  | .expression value _ => .expression value.erase .none
  | .block block => .block block.erase

def Statement.eraseEach : List Statement → List Statement
  | [] => []
  | first :: rest => first.erase :: Statement.eraseEach rest

def Block.erase : Block → Block
  | .mk statements _ => .mk (Statement.eraseEach statements) .none

def Conditional.erase : Conditional → Conditional
  | .mk condition body otherwise _ => .mk condition.erase body.erase otherwise.erase .none

def Otherwise.erase : Otherwise → Otherwise
  | .nothing => .nothing
  | .block block => .block block.erase
  | .chain conditional => .chain conditional.erase

end

def ImportSymbol.erase (symbol : ImportSymbol) : ImportSymbol :=
  ⟨symbol.symbol.erase, symbol.renamed.map Identifier.erase, .none⟩

mutual

def Access.erase : Access → Access
  | .star _ => .star .none
  | .symbol taken => .symbol taken.erase
  | .subPackage name access _ => .subPackage name.erase access.erase .none
  | .multiple accesses _ => .multiple (Access.eraseEach accesses) .none

def Access.eraseEach : List Access → List Access
  | [] => []
  | first :: rest => first.erase :: Access.eraseEach rest

end

def Package.erase (package : Package) : Package :=
  ⟨package.name.erase, package.access.erase, .none⟩

def Import.erase (statement : Import) : Import := ⟨statement.package.erase, .none⟩

def Member.erase (member : Member) : Member := ⟨member.identifier.erase, member.type.erase⟩

def Circuit.erase (circuit : Circuit) : Circuit :=
  ⟨circuit.identifier.erase, circuit.members.map Member.erase, circuit.isRecord, .none⟩

def Input.erase (input : Input) : Input :=
  ⟨input.identifier.erase, input.mode, input.type.erase, .none⟩

def FunctionDecl.erase (function : FunctionDecl) : FunctionDecl :=
  ⟨function.identifier.erase, function.inputs.map Input.erase, function.output.map Ty.erase,
    function.body.erase, .none⟩

def Declaration.erase : Declaration → Declaration
  | .circuit declared => .circuit declared.erase
  | .function declared => .function declared.erase

def File.erase (file : File) : File :=
  ⟨file.imports.map Import.erase, file.declarations.map Declaration.erase, .none⟩

theorem Expression.eraseEach_eq_map (expressions : List Expression) :
    Expression.eraseEach expressions = expressions.map Expression.erase := by
  induction expressions with
  | nil => rfl
  | cons first rest ih => rw [Expression.eraseEach, ih, List.map_cons]

theorem Statement.eraseEach_eq_map (statements : List Statement) :
    Statement.eraseEach statements = statements.map Statement.erase := by
  induction statements with
  | nil => rfl
  | cons first rest ih => rw [Statement.eraseEach, ih, List.map_cons]

theorem Access.eraseEach_eq_map (accesses : List Access) :
    Access.eraseEach accesses = accesses.map Access.erase := by
  induction accesses with
  | nil => rfl
  | cons first rest ih => rw [Access.eraseEach, ih, List.map_cons]

def Primitive.Fits (value : String) : Primitive → Prop
  | .boolean => value = "true" ∨ value = "false"
  | .address => ∃ rest, value.toList = "aleo1".toList ++ rest ∧ rest ≠ [] ∧
      ∀ c ∈ rest, addressPart.contains c = true
  | .string => '"' ∉ value.toList
  | .field | .group | .scalar | .integer _ =>
    value.toList ≠ [] ∧ ∀ c ∈ value.toList, digit.contains c = true

def Identifier.WellFormed (identifier : Identifier) : Prop := IsName identifier.name

def Ty.WellFormed : Ty → Prop
  | .primitive _ => True
  | .named identifier => identifier.WellFormed ∧ ∀ type : Primitive, type.text ≠ identifier.name
  | .unresolved => False

mutual

def Expression.WellFormed : Expression → Prop
  | .literal value type _ => type.Fits value
  | .var name _ => IsName name ∧ ¬ StartsAddress name
  | .binary _ left right _ => left.WellFormed ∧ right.WellFormed
  | .unary _ operand _ => operand.WellFormed
  | .call callee arguments _ => callee.WellFormed ∧ Expression.EachWellFormed arguments
  | .access target member _ => target.WellFormed ∧ member.WellFormed

def Expression.EachWellFormed : List Expression → Prop
  | [] => True
  | first :: rest => first.WellFormed ∧ Expression.EachWellFormed rest

end

structure Binding.WellFormed (binding : Binding) : Prop where
  name : binding.name.WellFormed
  type : ∀ type, binding.type = some type → type.WellFormed
  value : binding.value.WellFormed

structure LoopHead.WellFormed (head : LoopHead) : Prop where
  name : head.name.WellFormed
  type : head.type.WellFormed
  start : head.start.WellFormed
  stop : head.stop.WellFormed

mutual

def Statement.WellFormed : Statement → Prop
  | .ret value _ => value.WellFormed
  | .binding binding => binding.WellFormed
  | .assign _ place value _ => place.WellFormed ∧ value.WellFormed
  | .conditional conditional => conditional.WellFormed
  | .loop head body _ => head.WellFormed ∧ body.WellFormed
  | .console _ arguments _ => Expression.EachWellFormed arguments
  | .expression value _ => value.WellFormed
  | .block block => block.WellFormed

def Statement.EachWellFormed : List Statement → Prop
  | [] => True
  | first :: rest => first.WellFormed ∧ Statement.EachWellFormed rest

def Block.WellFormed : Block → Prop
  | .mk statements _ => Statement.EachWellFormed statements

def Conditional.WellFormed : Conditional → Prop
  | .mk condition body otherwise _ =>
    condition.WellFormed ∧ body.WellFormed ∧ otherwise.WellFormed

def Otherwise.WellFormed : Otherwise → Prop
  | .nothing => True
  | .block block => block.WellFormed
  | .chain conditional => conditional.WellFormed

end

structure ImportSymbol.WellFormed (taken : ImportSymbol) : Prop where
  symbol : taken.symbol.WellFormed
  renamed : ∀ name, taken.renamed = some name → name.WellFormed

mutual

def Access.WellFormed : Access → Prop
  | .star _ => True
  | .symbol taken => taken.WellFormed
  | .subPackage name access _ => name.WellFormed ∧ access.WellFormed
  | .multiple accesses _ => accesses ≠ [] ∧ Access.EachWellFormed accesses

def Access.EachWellFormed : List Access → Prop
  | [] => True
  | first :: rest => first.WellFormed ∧ Access.EachWellFormed rest

end

structure Import.WellFormed (statement : Import) : Prop where
  name : statement.package.name.WellFormed
  access : statement.package.access.WellFormed

structure Member.WellFormed (member : Member) : Prop where
  name : member.identifier.WellFormed
  type : member.type.WellFormed

structure Circuit.WellFormed (circuit : Circuit) : Prop where
  name : circuit.identifier.WellFormed
  members : ∀ member ∈ circuit.members, member.WellFormed

structure Input.WellFormed (input : Input) : Prop where
  name : input.identifier.WellFormed
  type : input.type.WellFormed

structure FunctionDecl.WellFormed (function : FunctionDecl) : Prop where
  name : function.identifier.WellFormed
  inputs : ∀ input ∈ function.inputs, input.WellFormed
  output : ∀ type, function.output = some type → type.WellFormed
  body : function.body.WellFormed

def Declaration.WellFormed : Declaration → Prop
  | .circuit declared => declared.WellFormed
  | .function declared => declared.WellFormed

/-- The names and literals of a file are such that the grammar can read them. -/
structure File.WellFormed (file : File) : Prop where
  imports : ∀ statement ∈ file.imports, statement.WellFormed
  declarations : ∀ declaration ∈ file.declarations, declaration.WellFormed

end LeoFront

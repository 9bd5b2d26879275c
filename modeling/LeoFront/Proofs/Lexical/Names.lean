import LeoFront.Proofs.Places.Outline
import LeoFront.Proofs.RoundTrip.Tree

namespace LeoFront
open Grammar (IsName wordPart)

def Ty.names : Ty → List Identifier
  | .named identifier => [identifier]
  | .primitive _ | .unresolved => []

mutual

def Expression.names : Expression → List Identifier
  | .literal .. => []
  | .var name span => [⟨name, span⟩]
  | .binary _ left right _ => left.names ++ right.names
  | .unary _ operand _ => operand.names
  | .call callee arguments _ => callee.names ++ Expression.namesOfEach arguments
  | .access target member _ => target.names ++ [member]

def Expression.namesOfEach : List Expression → List Identifier
  | [] => []
  | first :: rest => first.names ++ Expression.namesOfEach rest

end

def Binding.names (binding : Binding) : List Identifier :=
  binding.name :: (binding.type.toList.flatMap Ty.names ++ binding.value.names)

def LoopHead.names (head : LoopHead) : List Identifier :=
  head.name :: (head.type.names ++ (head.start.names ++ head.stop.names))

mutual

def Statement.names : Statement → List Identifier
  | .ret value _ => value.names
  | .binding binding => binding.names
  | .assign _ place value _ => place.names ++ value.names
  | .conditional conditional => conditional.names
  | .loop head body _ => head.names ++ body.names
  | .console _ arguments _ => Expression.namesOfEach arguments
  | .expression value _ => value.names
  | .block block => block.names

def Statement.namesOfEach : List Statement → List Identifier
  | [] => []
  | first :: rest => first.names ++ Statement.namesOfEach rest

def Block.names : Block → List Identifier
  | .mk statements _ => Statement.namesOfEach statements

def Conditional.names : Conditional → List Identifier
  | .mk condition body otherwise _ => condition.names ++ (body.names ++ otherwise.names)

def Otherwise.names : Otherwise → List Identifier
  | .nothing => []
  | .block block => block.names
  | .chain conditional => conditional.names

end

def ImportSymbol.names (taken : ImportSymbol) : List Identifier :=
  taken.symbol :: taken.renamed.toList

mutual

def Access.names : Access → List Identifier
  | .star _ => []
  | .symbol taken => taken.names
  | .subPackage name access _ => name :: access.names
  | .multiple accesses _ => Access.namesOfEach accesses

def Access.namesOfEach : List Access → List Identifier
  | [] => []
  | first :: rest => first.names ++ Access.namesOfEach rest

end

def Package.names (package : Package) : List Identifier := package.name :: package.access.names

def Member.names (member : Member) : List Identifier := member.identifier :: member.type.names

def Circuit.names (circuit : Circuit) : List Identifier :=
  circuit.identifier :: circuit.members.flatMap Member.names

def Input.names (input : Input) : List Identifier := input.identifier :: input.type.names

def FunctionDecl.names (function : FunctionDecl) : List Identifier :=
  function.identifier :: (function.inputs.flatMap Input.names ++
    (function.output.toList.flatMap Ty.names ++ function.body.names))

def Declaration.names : Declaration → List Identifier
  | .circuit declared => declared.names
  | .function declared => declared.names

def File.names (file : File) : List Identifier :=
  file.imports.flatMap (fun statement => statement.package.names) ++
    file.declarations.flatMap Declaration.names

/-- A name that stands where its span says, with no character of a word before or behind it. -/
structure Identifier.Whole (source : List Char) (identifier : Identifier) : Prop where
  isName : IsName identifier.name
  stands : ∃ before rest, source = before ++ (identifier.name.toList ++ rest) ∧
    identifier.span = ⟨.behind before, .behind (before ++ identifier.name.toList)⟩ ∧
    (∀ c ∈ before.getLast?, wordPart.contains c = false) ∧
    ∀ c ∈ rest.head?, wordPart.contains c = false

def Sound {α : Type} (source : List Char) (wellFormed : α → Prop) (names : α → List Identifier)
    (value : α) : Prop :=
  wellFormed value ∧ ∀ name ∈ names value, name.Whole source

theorem sound_each {α : Type} {source : List Char} {wellFormed : α → Prop}
    {names : α → List Identifier} {eachWellFormed : List α → Prop}
    {namesOfEach : List α → List Identifier} {values : List α}
    (each : ∀ value ∈ values, Sound source wellFormed names value)
    (empty : eachWellFormed [] ∧ namesOfEach [] = [])
    (cons : ∀ first rest, (wellFormed first → eachWellFormed rest → eachWellFormed (first :: rest)) ∧
      namesOfEach (first :: rest) = names first ++ namesOfEach rest) :
    Sound source eachWellFormed namesOfEach values := by
  induction values with
  | nil => exact ⟨empty.1, by simp [empty.2]⟩
  | cons first rest ih =>
    obtain ⟨here, others⟩ := List.forall_mem_cons.mp each
    refine ⟨(cons first rest).1 here.1 (ih others).1, ?_⟩
    rw [(cons first rest).2]
    exact List.forall_mem_append.mpr ⟨here.2, (ih others).2⟩

end LeoFront

import LeoFront.Check.Checker

namespace LeoFront.Checker
variable {σ : Type}

def bindingVariable (binding : Binding) : Variable where
  type := binding.type.getD .unresolved
  span := binding.name.span
  origin := match binding.kind with
    | .constant => .constant
    | .mutable => .mutable

mutual

def visitStatement : Statement → Checker σ → Checker σ
  | .ret .., checker => { checker with hasReturn := true }
  | .binding binding, checker =>
    (checker.checkType? binding.type).declare binding.name.name (bindingVariable binding)
  | .conditional conditional, checker => visitConditional conditional checker
  | .loop head body _, checker =>
    let inside := (checker.checkType head.type).enterScope.declare head.name.name
      ⟨head.type, head.name.span, .constant⟩
    (visitBlock body inside).exitScope
  | .block block, checker => visitBlock block checker
  | .assign .., checker | .console .., checker | .expression .., checker => checker

def visitStatements : List Statement → Checker σ → Checker σ
  | [], checker => checker
  | first :: rest, checker => visitStatements rest (visitStatement first checker)

def visitBlock : Block → Checker σ → Checker σ
  | .mk statements _, checker => (visitStatements statements checker.enterScope).exitScope

def visitConditional : Conditional → Checker σ → Checker σ
  | .mk _ body otherwise _, checker => visitOtherwise otherwise (visitBlock body checker)

def visitOtherwise : Otherwise → Checker σ → Checker σ
  | .nothing, checker => checker
  | .block block, checker => visitBlock block checker
  | .chain conditional, checker => visitConditional conditional checker

end

def visitInput (checker : Checker σ) (input : Input) : Checker σ :=
  (checker.checkType input.type).declare input.identifier.name
    ⟨input.type, input.identifier.span, .input input.mode⟩

def visitFunction (function : FunctionDecl) (checker : Checker σ) : Checker σ :=
  let fresh : Checker σ := { checker with
    hasReturn := false
    symbols := checker.symbols.clearVariables
    parent := some function.identifier.name }
  let checked := visitBlock function.body (function.inputs.foldl visitInput fresh)
  if checked.hasReturn then checked
  else checked.report (.functionHasNoReturn function.identifier.name) function.span

end LeoFront.Checker

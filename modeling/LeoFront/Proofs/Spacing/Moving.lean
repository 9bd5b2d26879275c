import LeoFront.Proofs.RoundTrip.Tree

namespace LeoFront

def Span.move (shift : Position → Position) (span : Span) : Span := ⟨shift span.start, shift span.stop⟩

def Identifier.move (shift : Position → Position) (identifier : Identifier) : Identifier :=
  ⟨identifier.name, identifier.span.move shift⟩

def Ty.move (shift : Position → Position) : Ty → Ty
  | .named identifier => .named (identifier.move shift)
  | .primitive type => .primitive type
  | .unresolved => .unresolved

mutual

def Expression.move (shift : Position → Position) : Expression → Expression
  | .literal value type span => .literal value type (span.move shift)
  | .var name span => .var name (span.move shift)
  | .binary op left right span => .binary op (left.move shift) (right.move shift) (span.move shift)
  | .unary op operand span => .unary op (operand.move shift) (span.move shift)
  | .call callee arguments span =>
    .call (callee.move shift) (Expression.moveEach shift arguments) (span.move shift)
  | .access target member span => .access (target.move shift) (member.move shift) (span.move shift)

def Expression.moveEach (shift : Position → Position) : List Expression → List Expression
  | [] => []
  | first :: rest => first.move shift :: Expression.moveEach shift rest

end

def Binding.move (shift : Position → Position) (binding : Binding) : Binding :=
  ⟨binding.kind, binding.name.move shift, binding.type.map (Ty.move shift), binding.value.move shift,
    binding.span.move shift⟩

def LoopHead.move (shift : Position → Position) (head : LoopHead) : LoopHead :=
  ⟨head.name.move shift, head.type.move shift, head.start.move shift, head.stop.move shift⟩

mutual

def Statement.move (shift : Position → Position) : Statement → Statement
  | .ret value span => .ret (value.move shift) (span.move shift)
  | .binding binding => .binding (binding.move shift)
  | .assign op place value span => .assign op (place.move shift) (value.move shift) (span.move shift)
  | .conditional conditional => .conditional (conditional.move shift)
  | .loop head body span => .loop (head.move shift) (body.move shift) (span.move shift)
  | .console function arguments span =>
    .console function (Expression.moveEach shift arguments) (span.move shift)
  | .expression value span => .expression (value.move shift) (span.move shift)
  | .block block => .block (block.move shift)

def Statement.moveEach (shift : Position → Position) : List Statement → List Statement
  | [] => []
  | first :: rest => first.move shift :: Statement.moveEach shift rest

def Block.move (shift : Position → Position) : Block → Block
  | .mk statements span => .mk (Statement.moveEach shift statements) (span.move shift)

def Conditional.move (shift : Position → Position) : Conditional → Conditional
  | .mk condition body otherwise span =>
    .mk (condition.move shift) (body.move shift) (otherwise.move shift) (span.move shift)

def Otherwise.move (shift : Position → Position) : Otherwise → Otherwise
  | .nothing => .nothing
  | .block block => .block (block.move shift)
  | .chain conditional => .chain (conditional.move shift)

end

def ImportSymbol.move (shift : Position → Position) (symbol : ImportSymbol) : ImportSymbol :=
  ⟨symbol.symbol.move shift, symbol.renamed.map (Identifier.move shift), symbol.span.move shift⟩

mutual

def Access.move (shift : Position → Position) : Access → Access
  | .star span => .star (span.move shift)
  | .symbol taken => .symbol (taken.move shift)
  | .subPackage name access span => .subPackage (name.move shift) (access.move shift) (span.move shift)
  | .multiple accesses span => .multiple (Access.moveEach shift accesses) (span.move shift)

def Access.moveEach (shift : Position → Position) : List Access → List Access
  | [] => []
  | first :: rest => first.move shift :: Access.moveEach shift rest

end

def Package.move (shift : Position → Position) (package : Package) : Package :=
  ⟨package.name.move shift, package.access.move shift, package.span.move shift⟩

def Import.move (shift : Position → Position) (statement : Import) : Import :=
  ⟨statement.package.move shift, statement.span.move shift⟩

def Member.move (shift : Position → Position) (member : Member) : Member :=
  ⟨member.identifier.move shift, member.type.move shift⟩

def Circuit.move (shift : Position → Position) (circuit : Circuit) : Circuit :=
  ⟨circuit.identifier.move shift, circuit.members.map (Member.move shift), circuit.isRecord,
    circuit.span.move shift⟩

def Input.move (shift : Position → Position) (input : Input) : Input :=
  ⟨input.identifier.move shift, input.mode, input.type.move shift, input.span.move shift⟩

def FunctionDecl.move (shift : Position → Position) (function : FunctionDecl) : FunctionDecl :=
  ⟨function.identifier.move shift, function.inputs.map (Input.move shift),
    function.output.map (Ty.move shift), function.body.move shift, function.span.move shift⟩

def Declaration.move (shift : Position → Position) : Declaration → Declaration
  | .circuit declared => .circuit (declared.move shift)
  | .function declared => .function (declared.move shift)

def Grammar.Item.move (shift : Position → Position) : Grammar.Item → Grammar.Item
  | .statement imported => .statement (imported.move shift)
  | .declaration declared => .declaration (declared.move shift)

theorem Expression.moveEach_eq_map (shift : Position → Position) (expressions : List Expression) :
    Expression.moveEach shift expressions = expressions.map (Expression.move shift) := by
  induction expressions with
  | nil => rfl
  | cons first rest ih => rw [Expression.moveEach, ih, List.map_cons]

theorem Statement.moveEach_eq_map (shift : Position → Position) (statements : List Statement) :
    Statement.moveEach shift statements = statements.map (Statement.move shift) := by
  induction statements with
  | nil => rfl
  | cons first rest ih => rw [Statement.moveEach, ih, List.map_cons]

theorem Access.moveEach_eq_map (shift : Position → Position) (accesses : List Access) :
    Access.moveEach shift accesses = accesses.map (Access.move shift) := by
  induction accesses with
  | nil => rfl
  | cons first rest ih => rw [Access.moveEach, ih, List.map_cons]

theorem Expression.span_move (shift : Position → Position) (expression : Expression) :
    (expression.move shift).span = expression.span.move shift := by
  cases expression <;> rfl

@[simp] theorem Span.move_id (span : Span) : span.move id = span := rfl

@[simp] theorem Identifier.move_id (identifier : Identifier) : identifier.move id = identifier := rfl

@[simp] theorem Ty.move_id (type : Ty) : type.move id = type := by
  cases type <;> rfl

mutual

@[simp] theorem Expression.move_id (expression : Expression) : expression.move id = expression := by
  cases expression with
  | literal | var => rfl
  | binary op left right =>
    rw [Expression.move, Expression.move_id left, Expression.move_id right, Span.move_id]
  | unary op operand => rw [Expression.move, Expression.move_id operand, Span.move_id]
  | call callee arguments =>
    rw [Expression.move, Expression.move_id callee, Expression.moveEach_id arguments, Span.move_id]
  | access target =>
    rw [Expression.move, Expression.move_id target, Identifier.move_id, Span.move_id]

theorem Expression.moveEach_id (expressions : List Expression) :
    Expression.moveEach id expressions = expressions := by
  cases expressions with
  | nil => rfl
  | cons first rest =>
    rw [Expression.moveEach, Expression.move_id first, Expression.moveEach_id rest]

end

theorem map_move_id {α : Type} {move : α → α} (same : ∀ value, move value = value) (some : Option α) :
    some.map move = some := by
  cases some <;> simp [same]

theorem Binding.move_id (binding : Binding) : binding.move id = binding := by
  simp [Binding.move, map_move_id Ty.move_id]

theorem LoopHead.move_id (head : LoopHead) : head.move id = head := by
  simp [LoopHead.move]

mutual

theorem Statement.move_id (statement : Statement) : statement.move id = statement := by
  cases statement with
  | ret | assign | expression => simp [Statement.move]
  | binding binding => rw [Statement.move, Binding.move_id]
  | conditional conditional => rw [Statement.move, Conditional.move_id conditional]
  | loop head body => rw [Statement.move, LoopHead.move_id, Block.move_id body, Span.move_id]
  | console function arguments => rw [Statement.move, Expression.moveEach_id, Span.move_id]
  | block block => rw [Statement.move, Block.move_id block]

theorem Statement.moveEach_id (statements : List Statement) :
    Statement.moveEach id statements = statements := by
  cases statements with
  | nil => rfl
  | cons first rest =>
    rw [Statement.moveEach, Statement.move_id first, Statement.moveEach_id rest]

theorem Block.move_id (block : Block) : block.move id = block := by
  obtain ⟨statements, span⟩ := block
  rw [Block.move, Statement.moveEach_id statements, Span.move_id]

theorem Conditional.move_id (conditional : Conditional) : conditional.move id = conditional := by
  obtain ⟨condition, body, otherwise, span⟩ := conditional
  rw [Conditional.move, Expression.move_id, Block.move_id body, Otherwise.move_id otherwise,
    Span.move_id]

theorem Otherwise.move_id (otherwise : Otherwise) : otherwise.move id = otherwise := by
  cases otherwise with
  | nothing => rfl
  | block block => rw [Otherwise.move, Block.move_id block]
  | chain conditional => rw [Otherwise.move, Conditional.move_id conditional]

end

theorem ImportSymbol.move_id (symbol : ImportSymbol) : symbol.move id = symbol := by
  simp [ImportSymbol.move, map_move_id Identifier.move_id]

mutual

theorem Access.move_id (access : Access) : access.move id = access := by
  cases access with
  | star => rfl
  | symbol taken => rw [Access.move, ImportSymbol.move_id]
  | subPackage name access =>
    rw [Access.move, Access.move_id access, Identifier.move_id, Span.move_id]
  | multiple accesses => rw [Access.move, Access.moveEach_id accesses, Span.move_id]

theorem Access.moveEach_id (accesses : List Access) : Access.moveEach id accesses = accesses := by
  cases accesses with
  | nil => rfl
  | cons first rest =>
    rw [Access.moveEach, Access.move_id first, Access.moveEach_id rest]

end

theorem Package.move_id (package : Package) : package.move id = package := by
  simp [Package.move, Access.move_id]

theorem Import.move_id (statement : Import) : statement.move id = statement := by
  simp [Import.move, Package.move_id]

theorem Circuit.move_id (circuit : Circuit) : circuit.move id = circuit := by
  have members : circuit.members.map (Member.move id) = circuit.members :=
    List.map_id'' (fun member => by simp [Member.move]) _
  simp [Circuit.move, members]

theorem FunctionDecl.move_id (function : FunctionDecl) : function.move id = function := by
  have inputs : function.inputs.map (Input.move id) = function.inputs :=
    List.map_id'' (fun input => by simp [Input.move]) _
  simp [FunctionDecl.move, inputs, map_move_id Ty.move_id, Block.move_id]

theorem Declaration.move_id (declaration : Declaration) : declaration.move id = declaration := by
  cases declaration with
  | circuit declared => rw [Declaration.move, Circuit.move_id]
  | function declared => rw [Declaration.move, FunctionDecl.move_id]

theorem Grammar.Item.move_id (item : Grammar.Item) : item.move id = item := by
  cases item with
  | statement imported => rw [Grammar.Item.move, Import.move_id]
  | declaration declared => rw [Grammar.Item.move, Declaration.move_id]

theorem Grammar.Item.map_move_id (items : List Grammar.Item) : items.map (Item.move id) = items := by
  rw [funext Item.move_id, List.map_id']

def Position.nowhere (_ : Position) : Position := ⟨0, 0, 0⟩

theorem Identifier.move_nowhere (identifier : Identifier) :
    identifier.move .nowhere = identifier.erase := rfl

theorem Ty.move_nowhere (type : Ty) : type.move .nowhere = type.erase := by
  cases type <;> rfl

mutual

theorem Expression.move_nowhere (expression : Expression) :
    expression.move .nowhere = expression.erase := by
  cases expression with
  | literal | var => rfl
  | binary op left right =>
    rw [Expression.move, Expression.move_nowhere left, Expression.move_nowhere right]
    rfl
  | unary op operand =>
    rw [Expression.move, Expression.move_nowhere operand]
    rfl
  | call callee arguments =>
    rw [Expression.move, Expression.move_nowhere callee, Expression.moveEach_nowhere arguments]
    rfl
  | access target =>
    rw [Expression.move, Expression.move_nowhere target]
    rfl

theorem Expression.moveEach_nowhere (expressions : List Expression) :
    Expression.moveEach .nowhere expressions = Expression.eraseEach expressions := by
  cases expressions with
  | nil => rfl
  | cons first rest =>
    rw [Expression.moveEach, Expression.move_nowhere first, Expression.moveEach_nowhere rest]
    rfl

end

theorem Binding.move_nowhere (binding : Binding) : binding.move .nowhere = binding.erase := by
  simp only [Binding.move, funext Ty.move_nowhere, Expression.move_nowhere]
  rfl

theorem LoopHead.move_nowhere (head : LoopHead) : head.move .nowhere = head.erase := by
  simp only [LoopHead.move, Ty.move_nowhere, Expression.move_nowhere]
  rfl

mutual

theorem Statement.move_nowhere (statement : Statement) :
    statement.move .nowhere = statement.erase := by
  cases statement with
  | ret | assign | expression =>
    simp only [Statement.move, Expression.move_nowhere]
    rfl
  | binding binding =>
    rw [Statement.move, Binding.move_nowhere]
    rfl
  | conditional conditional =>
    rw [Statement.move, Conditional.move_nowhere conditional]
    rfl
  | loop head body =>
    rw [Statement.move, LoopHead.move_nowhere, Block.move_nowhere body]
    rfl
  | console function arguments =>
    rw [Statement.move, Expression.moveEach_nowhere]
    rfl
  | block block =>
    rw [Statement.move, Block.move_nowhere block]
    rfl

theorem Statement.moveEach_nowhere (statements : List Statement) :
    Statement.moveEach .nowhere statements = Statement.eraseEach statements := by
  cases statements with
  | nil => rfl
  | cons first rest =>
    rw [Statement.moveEach, Statement.move_nowhere first, Statement.moveEach_nowhere rest]
    rfl

theorem Block.move_nowhere (block : Block) : block.move .nowhere = block.erase := by
  obtain ⟨statements, span⟩ := block
  rw [Block.move, Statement.moveEach_nowhere statements]
  rfl

theorem Conditional.move_nowhere (conditional : Conditional) :
    conditional.move .nowhere = conditional.erase := by
  obtain ⟨condition, body, otherwise, span⟩ := conditional
  rw [Conditional.move, Expression.move_nowhere, Block.move_nowhere body,
    Otherwise.move_nowhere otherwise]
  rfl

theorem Otherwise.move_nowhere (otherwise : Otherwise) :
    otherwise.move .nowhere = otherwise.erase := by
  cases otherwise with
  | nothing => rfl
  | block block =>
    rw [Otherwise.move, Block.move_nowhere block]
    rfl
  | chain conditional =>
    rw [Otherwise.move, Conditional.move_nowhere conditional]
    rfl

end

theorem ImportSymbol.move_nowhere (symbol : ImportSymbol) : symbol.move .nowhere = symbol.erase := by
  simp only [ImportSymbol.move, funext Identifier.move_nowhere]
  rfl

mutual

theorem Access.move_nowhere (access : Access) : access.move .nowhere = access.erase := by
  cases access with
  | star => rfl
  | symbol taken =>
    rw [Access.move, ImportSymbol.move_nowhere]
    rfl
  | subPackage name access =>
    rw [Access.move, Access.move_nowhere access]
    rfl
  | multiple accesses =>
    rw [Access.move, Access.moveEach_nowhere accesses]
    rfl

theorem Access.moveEach_nowhere (accesses : List Access) :
    Access.moveEach .nowhere accesses = Access.eraseEach accesses := by
  cases accesses with
  | nil => rfl
  | cons first rest =>
    rw [Access.moveEach, Access.move_nowhere first, Access.moveEach_nowhere rest]
    rfl

end

theorem Import.move_nowhere (statement : Import) : statement.move .nowhere = statement.erase := by
  simp only [Import.move, Package.move, Access.move_nowhere]
  rfl

theorem Circuit.move_nowhere (circuit : Circuit) : circuit.move .nowhere = circuit.erase := by
  have member : Member.move .nowhere = Member.erase :=
    funext fun member => by simp only [Member.move, Ty.move_nowhere]; rfl
  simp only [Circuit.move, member]
  rfl

theorem FunctionDecl.move_nowhere (function : FunctionDecl) :
    function.move .nowhere = function.erase := by
  have input : Input.move .nowhere = Input.erase :=
    funext fun input => by simp only [Input.move, Ty.move_nowhere]; rfl
  simp only [FunctionDecl.move, input, funext Ty.move_nowhere, Block.move_nowhere]
  rfl

theorem Declaration.move_nowhere (declaration : Declaration) :
    declaration.move .nowhere = declaration.erase := by
  cases declaration with
  | circuit declared =>
    rw [Declaration.move, Circuit.move_nowhere]
    rfl
  | function declared =>
    rw [Declaration.move, FunctionDecl.move_nowhere]
    rfl

end LeoFront

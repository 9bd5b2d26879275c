import LeoFront.Proofs.Covering.Expressions

namespace LeoFront
open LeoFront.Parser

mutual

def Statement.nodes : Statement → List Expression
  | .ret value _ | .expression value _ => value.nodes
  | .binding binding => binding.value.nodes
  | .assign _ place value _ => place.nodes ++ value.nodes
  | .conditional conditional => conditional.nodes
  | .loop head body _ => head.start.nodes ++ (head.stop.nodes ++ body.nodes)
  | .console _ arguments _ => Expression.nodesOfEach arguments
  | .block block => block.nodes

def Statement.nodesOfEach : List Statement → List Expression
  | [] => []
  | first :: rest => first.nodes ++ Statement.nodesOfEach rest

def Block.nodes : Block → List Expression
  | .mk statements _ => Statement.nodesOfEach statements

def Conditional.nodes : Conditional → List Expression
  | .mk condition body otherwise _ => condition.nodes ++ (body.nodes ++ otherwise.nodes)

def Otherwise.nodes : Otherwise → List Expression
  | .nothing => []
  | .block block => block.nodes
  | .chain conditional => conditional.nodes

end

theorem Statement.nodesOfEach_eq_flatMap (statements : List Statement) :
    Statement.nodesOfEach statements = statements.flatMap Statement.nodes := by
  induction statements with
  | nil => rfl
  | cons first rest ih => rw [Statement.nodesOfEach, List.flatMap_cons, ih]

def Declaration.nodes : Declaration → List Expression
  | .circuit _ => []
  | .function declared => declared.body.nodes

def File.nodes (file : File) : List Expression := file.declarations.flatMap Declaration.nodes

namespace Grammar
variable {source : List Char}

theorem restores_expression : Restores source expression Expression.nodes :=
  covers_expression.restores

theorem restores_returnStatement : Restores source returnStatement Statement.nodes := by
  refine .spanned (.skip leads_token fun _ => .skip leads_token fun _ => ?_)
  refine .bind restores_expression fun value known => ?_
  exact .skip leads_token fun _ => .skip leads_token fun _ => .pure fun _ => known

theorem restores_bindingStatement : Restores source bindingStatement Statement.nodes := by
  refine .spanned (.skip leads_token fun kind => .skip leads_token fun _ => ?_)
  refine .skip leads_token fun name => .skip leads_token fun _ => ?_
  refine .skip leads_token fun type => .skip leads_token fun _ => .skip leads_token fun _ => ?_
  refine .bind restores_expression fun value known => ?_
  exact .skip leads_token fun _ => .skip leads_token fun _ => .pure fun _ => known

theorem restores_consoleStatement : Restores source consoleStatement Statement.nodes := by
  refine .spanned (.skip leads_token fun _ => .skip leads_token fun _ => ?_)
  refine .skip leads_token fun _ => .skip leads_token fun _ => ?_
  refine .skip leads_token fun function => .skip leads_token fun _ => ?_
  refine .skip (leads_literal (by decide)) fun _ => .skip leads_blanks fun _ => ?_
  refine .bind (leads_argumentNodes restores_expression) fun arguments all => ?_
  refine .skip leads_token fun _ => .skip leads_token fun _ => ?_
  exact .skip leads_token fun _ => .skip leads_token fun _ => .pure fun _ => all

theorem restores_assignStatement : Restores source assignStatement Statement.nodes := by
  refine .spanned (.bind restores_expression fun target place => .skip leads_token fun _ => ?_)
  refine .skip leads_token fun op => .skip leads_token fun _ => ?_
  refine .bind restores_expression fun value known => ?_
  refine .skip leads_token fun _ => .skip leads_token fun _ => .pure fun span => ?_
  exact List.forall_mem_append.mpr ⟨place, known⟩

theorem restores_expressionStatement : Restores source expressionStatement Statement.nodes :=
  .spanned (.bind restores_expression fun _ known => .skip leads_token fun _ =>
    .skip leads_token fun _ => .pure fun _ => known)

section
variable {block : Parser Block} {conditional : Parser Conditional}
  (blocks : Restores source block Block.nodes)
  (conditionals : Restores source conditional Conditional.nodes)
include blocks

theorem restores_loopStatement : Restores source (loopStatement block) Statement.nodes := by
  refine .spanned (.skip leads_token fun _ => .skip leads_token fun _ => ?_)
  refine .skip leads_token fun name => .skip leads_token fun _ => ?_
  refine .skip leads_token fun _ => .skip leads_token fun _ => ?_
  refine .skip leads_token fun type => .skip leads_token fun _ => ?_
  refine .skip leads_token fun _ => .skip leads_token fun _ => ?_
  refine .bind restores_expression fun first start => .skip leads_token fun _ => ?_
  refine .skip leads_token fun _ => .skip leads_token fun _ => ?_
  refine .bind restores_expression fun last stop => .skip leads_token fun _ => ?_
  refine .bind blocks fun block body => .pure fun span => ?_
  exact List.forall_mem_append.mpr ⟨start, List.forall_mem_append.mpr ⟨stop, body⟩⟩

include conditionals

theorem restores_statementOver :
    Restores source (statementOver block conditional) Statement.nodes := by
  refine .or restores_returnStatement (.or restores_bindingStatement (.or ?_
    (.or (restores_loopStatement blocks) (.or restores_consoleStatement (.or ?_
    (.or restores_assignStatement (.or restores_expressionStatement .fail)))))))
  · exact .bind conditionals fun _ known => .pure known
  · exact .bind blocks fun _ known => .pure known

theorem restores_blockOver :
    Restores source (blockOver (statementOver block conditional)) Block.nodes := by
  have each : Restores source (do
      let statement ← statementOver block conditional
      blanks
      return statement) Statement.nodes :=
    .bind (restores_statementOver blocks conditionals) fun _ known => .skip leads_token fun _ =>
      .pure known
  refine .spanned (.skip leads_token fun _ => .skip leads_token fun _ => ?_)
  refine .bind each.many fun statements all => .skip leads_token fun _ => .pure fun _ => ?_
  rw [Block.nodes, Statement.nodesOfEach_eq_flatMap]
  exact restores_flatMap all

theorem restores_otherwiseOver :
    Restores source (otherwiseOver block conditional) Otherwise.nodes := by
  refine .skip leads_token fun _ => .skip leads_token fun _ => .skip leads_token fun _ =>
    .or ?_ (.or ?_ .fail)
  · exact .bind conditionals fun _ known => .pure known
  · exact .bind blocks fun _ known => .pure known

theorem restores_conditionalOver :
    Restores source (conditionalOver block conditional) Conditional.nodes := by
  refine .spanned (.skip leads_token fun _ => .skip leads_token fun _ => ?_)
  refine .bind restores_expression fun condition tested => .skip leads_token fun _ => ?_
  refine .bind blocks fun block body => ?_
  refine .bind (restores_otherwiseOver blocks conditionals).optional fun otherwise rest => ?_
  refine .pure fun _ => List.forall_mem_append.mpr ⟨tested, List.forall_mem_append.mpr ⟨body, ?_⟩⟩
  cases otherwise with
  | none => exact nofun
  | some otherwise => exact rest otherwise rfl

end

theorem restores_nested (bound : List Char) : Restores source (blockWithin bound) Block.nodes ∧
    Restores source (conditionalWithin bound) Conditional.nodes := by
  induction bound with
  | nil => exact ⟨.fail, .fail⟩
  | cons _ bound ih =>
    rw [blockWithin, conditionalWithin]
    exact ⟨restores_blockOver ih.1 ih.2, restores_conditionalOver ih.1 ih.2⟩

theorem restores_function : Restores source function fun declared => declared.body.nodes := by
  have blocks : Restores source block Block.nodes := .bounded fun bound => (restores_nested bound).1
  refine .spanned (.skip leads_token fun _ => .skip leads_token fun _ => ?_)
  refine .skip leads_token fun name => .skip leads_token fun _ => ?_
  refine .skip leads_token fun _ => .skip leads_token fun _ => ?_
  refine .skip leads_token fun inputs => .skip leads_token fun _ => ?_
  refine .skip leads_token fun _ => .skip leads_token fun _ => ?_
  refine .skip leads_token fun output => .bind blocks fun body known => ?_
  exact .pure fun _ => known

theorem item_restored {here after : Cursor} {declaration : Declaration} (on : here.On source)
    (read : (item here).result = some (.declaration declaration, after)) :
    ∀ node ∈ declaration.nodes, node.Restored source := by
  rcases or_some read with imported | read
  · obtain ⟨_, _, _, read⟩ := bind_some.mp imported
    cases read
  rcases or_some read with declared | read
  · obtain ⟨_, _, _, read⟩ := bind_some.mp declared
    cases read
    exact nofun
  rcases or_some read with declared | none
  · obtain ⟨_, _, within, read⟩ := bind_some.mp declared
    cases read
    exact (restores_function _ _ _ (.of_on on) within).1
  · cases none

end Grammar

theorem File.parse_restored {text : String} {name : Option String} {file : File}
    (parsed : File.parse text name = .ok file) : ∀ node ∈ file.nodes, node.Restored text.toList := by
  obtain ⟨_, read, -⟩ := File.parseChars_ok_iff.mp parsed
  intro node member
  obtain ⟨declaration, among, inside⟩ := List.mem_flatMap.mp member
  obtain ⟨here, after, reaches, read⟩ := Grammar.file_declaration read declaration among
  exact Grammar.item_restored ((Cursor.On.ofSource text.toList).reaches reaches) read node inside

/-- The text at its span is by itself an expression, and the same one. -/
def Expression.Alone (source : List Char) (node : Expression) : Prop :=
  ∃ before slice rest, source = before ++ slice ++ rest ∧
    node.span = ⟨.behind before, .behind (before ++ slice)⟩ ∧
    ∃ alone : Expression, alone.move (.beyond before) = node ∧
      (Grammar.expression (.ofSource slice)).result = some (alone, ⟨[], .behind slice⟩)

def product : String := "function f() \x7b return (a + b) * c; \x7d"

theorem product_restored :
    ∃ file, File.parse product none = .ok file ∧
      ∀ node ∈ file.nodes, node.Restored product.toList := by
  have accepted : (File.parse product none).isOk := by decide +kernel
  obtain ⟨file, parsed⟩ := exists_of_isOk accepted
  exact ⟨file, parsed, File.parse_restored parsed⟩

theorem product_not_alone :
    ¬ ∀ (text : String) (name : Option String) (file : File), File.parse text name = .ok file →
      ∀ node ∈ file.nodes, node.Alone text.toList := by
  intro all
  have found : ((File.parse product none).toOption.map fun file => file.nodes.any fun node =>
      node.span.start.offset = 23 ∧ node.span.stop.offset = 33) = some true := by decide +kernel
  obtain ⟨file, parsed, found⟩ := exists_of_view found
  obtain ⟨node, member, places⟩ := List.any_eq_true.mp found
  obtain ⟨starts, stops⟩ := of_decide_eq_true places
  obtain ⟨before, slice, rest, source, span, alone, -, read⟩ := all product none file parsed node member
  rw [span] at starts stops
  -- a text is cut in one way at an offset
  have tail : rest = product.toList.drop 33 :=
    Grammar.rest_unique (source.symm.trans (List.take_append_drop 33 _).symm)
      (stops.trans (by decide +kernel))
  rw [List.append_assoc] at source
  have tails : slice ++ rest = product.toList.drop 23 :=
    Grammar.rest_unique (source.symm.trans (List.take_append_drop 23 _).symm)
      (starts.trans (by decide +kernel))
  have cut : slice = "a + b) * c".toList :=
    List.append_cancel_right (tails.trans (by rw [tail]; decide +kernel))
  have remains : (Grammar.expression (.ofSource "a + b) * c".toList)).result.all
      fun found => found.2.rest ≠ [] := by decide +kernel
  rw [← cut, read] at remains
  simp at remains

end LeoFront

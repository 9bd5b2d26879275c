import LeoFront.Proofs.RoundTrip.Printer
import Mathlib.Data.List.Induction

/-!
# Where the nodes of a tree stand

An outline forgets of a tree all but the spans of its nodes, what is written at the names and literals,
and which nodes are inside which.

* `Outline.Placed` says that the span of a node is a stretch of a source, that what is known of its
  text stands there, and that the nodes directly inside it are inside its span, one behind the other.
* `Laid` says of some outlines that they stand one behind the other between two offsets. It is what a
  sequence of parsers adds to (`Laid.append`), `Laid.node` makes one node of them.
-/

namespace LeoFront
open Text (units16)

/-- A node: its span, the text that stands there if the node tells, and the nodes inside it in source
order. -/
inductive Outline where
  | node (span : Span) (written : Option (List Char)) (inside : List Outline)

namespace Outline

def span : Outline → Span
  | .node span _ _ => span

def written : Outline → Option (List Char)
  | .node _ written _ => written

def inside : Outline → List Outline
  | .node _ _ inside => inside

end Outline

def Identifier.outline (identifier : Identifier) : Outline :=
  .node identifier.span (some identifier.name.toList) []

def Ty.outlines : Ty → List Outline
  | .named identifier => [identifier.outline]
  | .primitive _ | .unresolved => []

mutual

def Expression.outline : Expression → Outline
  | .literal value type span => .node span (some (type.literal value)) []
  | .var name span => .node span (some name.toList) []
  | .binary _ left right span => .node span none [left.outline, right.outline]
  | .unary _ operand span => .node span none [operand.outline]
  | .call callee arguments span =>
    .node span none (callee.outline :: Expression.outlineEach arguments)
  | .access target member span => .node span none [target.outline, member.outline]

def Expression.outlineEach : List Expression → List Outline
  | [] => []
  | first :: rest => first.outline :: Expression.outlineEach rest

end

def Binding.outline (binding : Binding) : Outline :=
  .node binding.span none
    (binding.name.outline :: binding.type.toList.flatMap Ty.outlines ++ [binding.value.outline])

def LoopHead.outlines (head : LoopHead) : List Outline :=
  head.name.outline :: head.type.outlines ++ [head.start.outline, head.stop.outline]

mutual

def Statement.outline : Statement → Outline
  | .ret value span => .node span none [value.outline]
  | .binding binding => binding.outline
  | .assign _ place value span => .node span none [place.outline, value.outline]
  | .conditional conditional => conditional.outline
  | .loop head body span => .node span none (head.outlines ++ [body.outline])
  | .console _ arguments span => .node span none (Expression.outlineEach arguments)
  | .expression value span => .node span none [value.outline]
  | .block block => block.outline

def Statement.outlineEach : List Statement → List Outline
  | [] => []
  | first :: rest => first.outline :: Statement.outlineEach rest

def Block.outline : Block → Outline
  | .mk statements span => .node span none (Statement.outlineEach statements)

def Conditional.outline : Conditional → Outline
  | .mk condition body otherwise span =>
    .node span none (condition.outline :: body.outline :: otherwise.outlines)

def Otherwise.outlines : Otherwise → List Outline
  | .nothing => []
  | .block block => [block.outline]
  | .chain conditional => [conditional.outline]

end

def ImportSymbol.outline (symbol : ImportSymbol) : Outline :=
  .node symbol.span none (symbol.symbol.outline :: symbol.renamed.toList.map Identifier.outline)

mutual

def Access.outline : Access → Outline
  | .star span => .node span none []
  | .symbol taken => taken.outline
  | .subPackage name access span => .node span none [name.outline, access.outline]
  | .multiple accesses span => .node span none (Access.outlineEach accesses)

def Access.outlineEach : List Access → List Outline
  | [] => []
  | first :: rest => first.outline :: Access.outlineEach rest

end

def Package.outline (package : Package) : Outline :=
  .node package.span none [package.name.outline, package.access.outline]

def Import.outline (statement : Import) : Outline :=
  .node statement.span none [statement.package.outline]

def Member.outlines (member : Member) : List Outline :=
  member.identifier.outline :: member.type.outlines

def Circuit.outline (circuit : Circuit) : Outline :=
  .node circuit.span none (circuit.identifier.outline :: circuit.members.flatMap Member.outlines)

def Input.outline (input : Input) : Outline :=
  .node input.span none (input.identifier.outline :: input.type.outlines)

def FunctionDecl.outline (function : FunctionDecl) : Outline :=
  .node function.span none (function.identifier.outline :: function.inputs.map Input.outline ++
    function.output.toList.flatMap Ty.outlines ++ [function.body.outline])

def Grammar.Item.outline : Grammar.Item → Outline
  | .statement imported => imported.outline
  | .declaration (.circuit declared) => declared.outline
  | .declaration (.function declared) => declared.outline

theorem Expression.outline_span (expression : Expression) :
    expression.outline.span = expression.span := by
  cases expression <;> rfl

theorem Expression.outlineEach_eq_flatMap (expressions : List Expression) :
    Expression.outlineEach expressions = expressions.flatMap fun each => [each.outline] := by
  induction expressions with
  | nil => rfl
  | cons first rest ih =>
    rw [Expression.outlineEach, ih, List.flatMap_cons]
    rfl

theorem Statement.outlineEach_eq_flatMap (statements : List Statement) :
    Statement.outlineEach statements = statements.flatMap fun each => [each.outline] := by
  induction statements with
  | nil => rfl
  | cons first rest ih =>
    rw [Statement.outlineEach, ih, List.flatMap_cons]
    rfl

theorem Access.outlineEach_eq_flatMap (accesses : List Access) :
    Access.outlineEach accesses = accesses.flatMap fun each => [each.outline] := by
  induction accesses with
  | nil => rfl
  | cons first rest ih =>
    rw [Access.outlineEach, ih, List.flatMap_cons]
    rfl

def lastLine (text : List Char) : List Char := (text.reverse.takeWhile (· ≠ '\n')).reverse

def Position.behind (text : List Char) : Position :=
  ⟨1 + text.count '\n', 1 + units16 (lastLine text), units16 text⟩

theorem lastLine_append (text : List Char) (c : Char) :
    lastLine (text ++ [c]) = if c = '\n' then [] else lastLine text ++ [c] := by
  by_cases newline : c = '\n' <;> simp [lastLine, newline]

theorem Position.after_start (text : List Char) : Position.start.after text = .behind text := by
  induction text using List.reverseRecOn with
  | nil => rfl
  | append_singleton text c ih =>
    rw [after_append, ih, after_cons, after_nil, next, behind, behind, lastLine_append]
    by_cases newline : c = '\n'
    · subst newline
      simp [Nat.add_assoc]
      rfl
    · simp [newline, Nat.add_assoc]

def Position.In (source : List Char) (position : Position) : Prop :=
  ∃ before rest, source = before ++ rest ∧ position = .behind before

def Span.Holds (source : List Char) (span : Span) (text : List Char) : Prop :=
  ∃ before rest, source = before ++ text ++ rest ∧
    span = ⟨.behind before, .behind (before ++ text)⟩

theorem units16_pos {text : List Char} (nonempty : text ≠ []) : 0 < units16 text := by
  obtain ⟨c, rest, rfl⟩ := List.exists_cons_of_ne_nil nonempty
  rw [Text.units16_cons]
  exact Nat.add_pos_left (Text.charUnits16_pos c) _

theorem Span.exists_holds {source : List Char} {span : Span} (start : span.start.In source)
    (stop : span.stop.In source) (le : span.start.offset ≤ span.stop.offset) :
    ∃ text, span.Holds source text := by
  obtain ⟨start, stop⟩ := span
  obtain ⟨before, rest, whole, rfl⟩ := start
  obtain ⟨upto, rest', whole', rfl⟩ := stop
  have begins : before <+: source := ⟨rest, whole.symm⟩
  have begins' : upto <+: source := ⟨rest', whole'.symm⟩
  change units16 before ≤ units16 upto at le
  rcases List.prefix_or_prefix_of_prefix begins begins' with ⟨text, rfl⟩ | ⟨text, rfl⟩
  · exact ⟨text, before, rest', whole', rfl⟩
  · by_cases empty : text = []
    · subst empty
      exact ⟨[], upto, rest', by simpa using whole', by simp⟩
    · have pos := units16_pos empty
      rw [Text.units16_append] at le
      omega

structure Outline.Placed (source : List Char) (node : Outline) : Prop where
  holds : ∃ text, node.span.Holds source text ∧ ∀ written ∈ node.written, text = written
  nonempty : node.span.start.offset < node.span.stop.offset
  inside : ∀ child ∈ node.inside, node.span.start.offset ≤ child.span.start.offset ∧
    child.span.stop.offset ≤ node.span.stop.offset
  inOrder : node.inside.Pairwise fun first second =>
    first.span.stop.offset ≤ second.span.start.offset

inductive Outline.Everywhere (good : Outline → Prop) : Outline → Prop
  | node {outline : Outline} (here : good outline)
      (inside : ∀ child ∈ outline.inside, Everywhere good child) : Everywhere good outline

/-- Outlines stand one behind the other between two offsets, and everything in them as it should. -/
def Laid (source : List Char) (first last : Nat) : List Outline → Prop
  | [] => first ≤ last
  | outline :: rest => first ≤ outline.span.start.offset ∧
    outline.Everywhere (Outline.Placed source) ∧ Laid source outline.span.stop.offset last rest

variable {source : List Char} {first middle last : Nat} {outlines others : List Outline}
  {outline : Outline}

theorem Outline.Everywhere.here {good : Outline → Prop} (everywhere : outline.Everywhere good) :
    good outline := by
  cases everywhere with
  | node here _ => exact here

theorem Outline.Placed.start_in (placed : outline.Placed source) :
    outline.span.start.In source := by
  obtain ⟨text, ⟨before, rest, whole, same⟩, -⟩ := placed.holds
  exact ⟨before, text ++ rest, by rw [whole, List.append_assoc], by rw [same]⟩

theorem Outline.Placed.stop_in (placed : outline.Placed source) :
    outline.span.stop.In source := by
  obtain ⟨text, ⟨before, rest, whole, same⟩, -⟩ := placed.holds
  exact ⟨before ++ text, rest, whole, by rw [same]⟩

namespace Laid

theorem le (laid : Laid source first last outlines) : first ≤ last := by
  induction outlines generalizing first with
  | nil => exact laid
  | cons outline rest ih =>
    obtain ⟨begins, everywhere, laid⟩ := laid
    have nonempty := everywhere.here.nonempty
    have ends := ih laid
    omega

theorem mono {least most : Nat} (laid : Laid source first last outlines) (begins : least ≤ first)
    (ends : last ≤ most) : Laid source least most outlines := by
  induction outlines generalizing least first with
  | nil => exact Nat.le_trans begins (Nat.le_trans laid ends)
  | cons outline rest ih =>
    obtain ⟨starts, everywhere, laid⟩ := laid
    exact ⟨Nat.le_trans begins starts, everywhere, ih laid (Nat.le_refl _)⟩

theorem append (laid : Laid source first middle outlines) (more : Laid source middle last others) :
    Laid source first last (outlines ++ others) := by
  induction outlines generalizing first with
  | nil => exact more.mono laid (Nat.le_refl _)
  | cons outline rest ih => exact ⟨laid.1, laid.2.1, ih laid.2.2⟩

theorem mem (laid : Laid source first last outlines) (member : outline ∈ outlines) :
    first ≤ outline.span.start.offset ∧ outline.span.stop.offset ≤ last ∧
      outline.Everywhere (Outline.Placed source) := by
  induction outlines generalizing first with
  | nil => cases member
  | cons next rest ih =>
    obtain ⟨begins, everywhere, laid⟩ := laid
    rcases List.mem_cons.mp member with rfl | among
    · exact ⟨begins, laid.le, everywhere⟩
    · obtain ⟨starts, ends, inner⟩ := ih laid among
      have nonempty := everywhere.here.nonempty
      exact ⟨by omega, ends, inner⟩

theorem lt_of_ne_nil (laid : Laid source first last outlines) (nonempty : outlines ≠ []) :
    first < last := by
  obtain ⟨outline, rest, rfl⟩ := List.exists_cons_of_ne_nil nonempty
  obtain ⟨begins, everywhere, laid⟩ := laid
  exact Nat.lt_of_le_of_lt begins (Nat.lt_of_lt_of_le everywhere.here.nonempty laid.le)

theorem pairwise (laid : Laid source first last outlines) : outlines.Pairwise fun first second =>
    first.span.stop.offset ≤ second.span.start.offset := by
  induction outlines generalizing first with
  | nil => exact .nil
  | cons next rest ih =>
    obtain ⟨-, -, laid⟩ := laid
    exact .cons (fun outline member => (laid.mem member).1) (ih laid)

theorem node {span : Span} {written : Option (List Char)} {text : List Char}
    (holds : span.Holds source text) (nonempty : span.start.offset < span.stop.offset)
    (tells : ∀ known ∈ written, text = known)
    (laid : Laid source span.start.offset span.stop.offset outlines) :
    Laid source span.start.offset span.stop.offset [.node span written outlines] := by
  refine ⟨Nat.le_refl _, .node ⟨⟨text, holds, tells⟩, nonempty, ?_, laid.pairwise⟩ ?_, Nat.le_refl _⟩
  · exact fun child member => ⟨(laid.mem member).1, (laid.mem member).2.1⟩
  · exact fun child member => (laid.mem member).2.2

theorem node_from {stop : Position} (ends : stop.In source)
    (laid : Laid source first stop.offset (outline :: outlines)) :
    Laid source first stop.offset [.node ⟨outline.span.start, stop⟩ none (outline :: outlines)] := by
  obtain ⟨begins, everywhere, more⟩ := laid
  have lt : outline.span.start.offset < stop.offset :=
    Nat.lt_of_lt_of_le everywhere.here.nonempty more.le
  have spanned : ∃ text, Span.Holds source ⟨outline.span.start, stop⟩ text :=
    Span.exists_holds everywhere.here.start_in ends (Nat.le_of_lt lt)
  obtain ⟨text, holds⟩ := spanned
  have inner : Laid source outline.span.start.offset stop.offset (outline :: outlines) :=
    ⟨Nat.le_refl _, everywhere, more⟩
  have tells : ∀ known ∈ (none : Option (List Char)), text = known := by simp
  exact (node holds lt tells inner).mono begins (Nat.le_refl _)

theorem node_through {left right : Outline} (laid : Laid source first last [left, right]) :
    Laid source first last [.node (left.span.through right.span) none [left, right]] := by
  obtain ⟨begins, everywhere, follows, everywhere', ends⟩ := laid
  have tight : Laid source first right.span.stop.offset [left, right] :=
    ⟨begins, everywhere, follows, everywhere', Nat.le_refl _⟩
  exact (tight.node_from everywhere'.here.stop_in).mono (Nat.le_refl _) ends

end Laid

end LeoFront

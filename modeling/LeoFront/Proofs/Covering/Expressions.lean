import LeoFront.Proofs.Completion.Expressions
import LeoFront.Proofs.Spacing.Slices

/-!
# Expressions with the parentheses around their operands

The span of an expression with operands begins where its first operand does, and the span of an operand
leaves out the parentheses around it. So the text at the span may lack parentheses that are opened before
it or closed behind it. With them it is an expression by itself, and the same one.

* `Spread` tells where a span lies in what was read: behind parentheses that are opened and before
  parentheses that are closed.
* `restored_of_viable`: what a rule of expressions reads is read by itself as an expression.
* `covers_expression`: this holds for all expressions inside an expression that is read.
-/

namespace LeoFront
open LeoFront.Parser
open Grammar (Spacing)

mutual

def Expression.nodes : Expression → List Expression
  | .literal value type span => [.literal value type span]
  | .var name span => [.var name span]
  | .binary op left right span => .binary op left right span :: (left.nodes ++ right.nodes)
  | .unary op operand span => .unary op operand span :: operand.nodes
  | .call callee arguments span =>
    .call callee arguments span :: (callee.nodes ++ Expression.nodesOfEach arguments)
  | .access target member span => .access target member span :: target.nodes

def Expression.nodesOfEach : List Expression → List Expression
  | [] => []
  | first :: rest => first.nodes ++ Expression.nodesOfEach rest

end

theorem Expression.nodesOfEach_eq_flatMap (expressions : List Expression) :
    Expression.nodesOfEach expressions = expressions.flatMap Expression.nodes := by
  induction expressions with
  | nil => rfl
  | cons first rest ih => rw [Expression.nodesOfEach, List.flatMap_cons, ih]

def Expression.beginsInside : Expression → Bool
  | .binary .. | .call .. | .access .. => true
  | .literal .. | .var .. | .unary .. => false

def Expression.endsInside : Expression → Bool
  | .binary .. => true
  | .literal .. | .var .. | .unary .. | .call .. | .access .. => false

inductive OpeningParens : List Char → Prop
  | nil : OpeningParens []
  | cons {gap rest : List Char} (spacing : Spacing gap) (onward : OpeningParens rest) :
      OpeningParens ('(' :: (gap ++ rest))

inductive ClosingParens : List Char → Prop
  | nil : ClosingParens []
  | snoc {inner gap : List Char} (closing : ClosingParens inner) (spacing : Spacing gap) :
      ClosingParens (inner ++ (gap ++ [')']))

/-- With the parentheses around its first and its last operand that its span leaves out, an expression
of a source is by itself an expression, and the same one. -/
def Expression.Restored (source : List Char) (node : Expression) : Prop :=
  ∃ before opening slice closing rest,
    source = before ++ (opening ++ slice ++ closing) ++ rest ∧
    node.span = ⟨.behind (before ++ opening), .behind (before ++ (opening ++ slice))⟩ ∧
    OpeningParens opening ∧ ClosingParens closing ∧
    (node.beginsInside = false → opening = []) ∧ (node.endsInside = false → closing = []) ∧
    ∃ alone : Expression, alone.move (.beyond before) = node ∧
      (Grammar.expression (.ofSource (opening ++ slice ++ closing))).result =
        some (alone, ⟨[], .behind (opening ++ slice ++ closing)⟩)

/-- Where a span lies in what was read. -/
def Spread (begins ends : Bool) (cursor after : Cursor) (span : Span) : Prop :=
  ∃ opening slice closing, cursor.rest = opening ++ slice ++ closing ++ after.rest ∧
    after.position = cursor.position.after (opening ++ slice ++ closing) ∧
    span = ⟨cursor.position.after opening, cursor.position.after (opening ++ slice)⟩ ∧
    OpeningParens opening ∧ ClosingParens closing ∧ (begins = false → opening = []) ∧
    (ends = false → closing = [])

namespace Spread
variable {cursor place here after : Cursor} {span other : Span} {begins ends : Bool}

theorem whole (reaches : cursor.Reaches after) :
    Spread false false cursor after ⟨cursor.position, after.position⟩ := by
  obtain ⟨text, rest, moved⟩ := reaches
  refine ⟨[], text, [], ?_, ?_, ?_, .nil, .nil, fun _ => rfl, fun _ => rfl⟩
  · simpa using rest
  · simpa using moved
  · rw [moved]
    rfl

theorem loosen (spread : Spread begins ends cursor after span) :
    Spread true true cursor after span := by
  obtain ⟨opening, slice, closing, rest, moved, same, opens, closes, -⟩ := spread
  exact ⟨opening, slice, closing, rest, moved, same, opens, closes, nofun, nofun⟩

theorem wrap {gap gap' : List Char} (spread : Spread true true here place span)
    (opens : cursor.rest = '(' :: (gap ++ here.rest))
    (opened : here.position = cursor.position.after ('(' :: gap)) (spacing : Spacing gap)
    (closes : place.rest = gap' ++ ')' :: after.rest)
    (closed : after.position = place.position.after (gap' ++ [')'])) (spacing' : Spacing gap') :
    Spread true true cursor after span := by
  obtain ⟨opening, slice, closing, rest, moved, rfl, opening', closing', -⟩ := spread
  refine ⟨'(' :: (gap ++ opening), slice, closing ++ (gap' ++ [')']), ?_, ?_, ?_,
    .cons spacing opening', .snoc closing' spacing', nofun, nofun⟩
  · simp [opens, rest, closes]
  · rw [closed, moved, opened, ← Position.after_append, ← Position.after_append]
    simp
  · rw [opened, ← Position.after_append, ← Position.after_append]
    simp

theorem through (left : Spread true true cursor place span) (between : place.Reaches here)
    (right : Spread true true here after other) :
    Spread true true cursor after (span.through other) := by
  obtain ⟨opening, slice, closing, rest, moved, rfl, opens, closes, -⟩ := left
  obtain ⟨gap, onward, moved'⟩ := between
  obtain ⟨opening', slice', closing', rest', moved'', rfl, opens', closes', -⟩ := right
  refine ⟨opening, slice ++ closing ++ gap ++ opening' ++ slice', closing', ?_, ?_, ?_, opens, closes',
    nofun, nofun⟩
  · simp [rest, onward, rest']
  · rw [moved'', moved', moved, ← Position.after_append, ← Position.after_append]
    simp
  · rw [Span.through, moved', moved, ← Position.after_append, ← Position.after_append]
    simp

theorem behind (target : Spread true true cursor place span) (reaches : place.Reaches after) :
    Spread true false cursor after ⟨span.start, after.position⟩ := by
  obtain ⟨opening, slice, closing, rest, moved, rfl, opens, closes, -⟩ := target
  obtain ⟨text, onward, moved'⟩ := reaches
  refine ⟨opening, slice ++ closing ++ text, [], ?_, ?_, ?_, opens, .nil, nofun, fun _ => rfl⟩
  · simp [rest, onward]
  · rw [moved', moved, ← Position.after_append]
    simp
  · rw [moved', moved, ← Position.after_append]
    simp

end Spread

namespace Grammar
variable {source : List Char} {cursor place after : Cursor} {value node : Expression} {level : Nat}
  {p q inner : Parser Expression} {position : Position} {text : List Char}

theorem stops_nil : Stops level [] := by
  refine ⟨fun _ _ => rfl, fun tighter _ _ _ => ?_⟩
  rcases tighter with _ | _ | _ | _ | _ | tighter <;> rfl

theorem Takes.chains {unary : Parser Expression} [Advances unary] {levels : Nat}
    (taken : Takes (chains unary levels) position text value []) (more : Nat) :
    Takes (chains unary (levels + more)) position text value [] := by
  induction more with
  | zero => exact taken
  | succ more ih =>
    have nothing (position : Position) :
        Takes (many (joined (Grammar.chains unary (levels + more)) (5 - (levels + more)))) position []
          [] [] :=
      many_eq consumes_joined (.done _) (rejects_joined (Nat.sub_le 5 _) position [] stops_nil)
    exact ih.ended ((nothing _).ended takes_pure)

theorem Takes.expression {levels : Nat}
    (taken : Takes (Grammar.chains unary levels) position text value []) (below : levels ≤ 6) :
    Takes Grammar.expression position text value [] := by
  have whole := taken.chains (6 - levels)
  rw [Nat.add_sub_cancel' below] at whole
  exact (result_expression _).symm.trans whole

theorem Takes.of_suffixed (taken : Takes (suffixed (expressionOver unary)) position text value []) :
    Takes Grammar.expression position text value [] := by
  have signs : Heads (· ∈ ['!', '-']) (oneText [("!", UnaryOp.not), ("-", .negate)]) :=
    heads_oneText (by decide)
  have unsigned : ∀ c ∈ ['!', '-'], ¬ Unsigned c := by decide
  have read : Takes (unaryOver unary) position text value [] :=
    .or_right (signs.bind.spanned.none (heads_primary _).bind unsigned taken) (.or_left taken)
  have chained : Takes (Grammar.chains unary 0) position text value [] :=
    (result_unary _).symm.trans read
  exact chained.expression (Nat.zero_le 6)

theorem Takes.of_primary (taken : Takes (primary (expressionOver unary)) position text value []) :
    Takes Grammar.expression position text value [] := by
  have nothing (position : Position) :
      Takes (many (further (expressionOver unary))) position [] [] [] :=
    many_eq consumes_further (.done _) (rejects_further position [] stops_nil)
  exact Takes.of_suffixed (taken.ended ((nothing _).ended takes_pure))

theorem restored_of_viable
    (viable : ∀ C, Viable C .token p q (C.Agree Expression.move) (.loose (Stops level)))
    (alone : ∀ {position text value}, Takes q position text value [] →
      Takes Grammar.expression position text value [])
    (on : cursor.On source) (bare : blankRun cursor.rest = 0)
    (read : (p cursor).result = some (node, after))
    (spread : Spread node.beginsInside node.endsInside cursor after node.span) :
    node.Restored source := by
  obtain ⟨before, whole, placed⟩ := on
  obtain ⟨opening, slice, closing, rest, moved, span, opens, closes, leads, trails⟩ := spread
  have here : cursor = ⟨opening ++ slice ++ closing ++ after.rest, .behind before⟩ :=
    congrArg₂ Cursor.mk rest placed
  have taken : Takes p (.behind before) (opening ++ slice ++ closing) node after.rest := by
    rw [Takes, ← here, read, ← placed, ← moved]
  rw [rest] at bare
  obtain ⟨value, again⟩ := (viable (.beyond before)).keeps .start bare taken
    (Position.beyond_start before).symm
  obtain ⟨-, taken', agree⟩ := again [] ⟨stops_nil, .inr fun _ here => absurd here (Option.not_mem_none _)⟩
  have result := alone taken'
  rw [Takes, List.append_nil, Position.after_start] at result
  refine ⟨before, opening, slice, closing, after.rest, by rw [whole, rest, List.append_assoc before],
    ?_, opens, closes, leads, trails, value, agree.symm.trans (Expression.move_id node), result⟩
  rw [span, placed, Position.behind_append, Position.behind_append]

/-- A rule tells where what it reads lies, and reads only expressions that are the same by
themselves. -/
def Covers (source : List Char) (p : Parser Expression) : Prop :=
  ∀ cursor value after, cursor.On source → (p cursor).result = some (value, after) →
    Spread true true cursor after value.span ∧ ∀ node ∈ value.nodes, node.Restored source

theorem bare_of_calm (opens : Opens text) : blankRun text = 0 := by
  obtain ⟨c, head, calm⟩ := opens
  obtain ⟨rest, rfl⟩ := List.head?_eq_some_iff.mp head
  rcases calm with part | symbol
  · obtain ⟨visible, slash⟩ := wordPart_visible part
    exact blankRun_visible visible slash
  · have visible : ∀ c ∈ ['"', '(', '!', '-'], isBlank c = false ∧ c ≠ '/' := by decide
    exact blankRun_visible (visible c symbol).1 (visible c symbol).2

theorem heads_unaryWithin (bound : List Char) : Heads Calm (unaryWithin bound) := by
  cases bound with
  | nil => exact .fail
  | cons _ bound => exact heads_unaryOver (unaryWithin bound)

theorem manyWithin_of_repeats {α : Type} {p : Parser α} {values : List α} {bound : List Char}
    (repeats : Repeats p cursor values after) (long : bound.length = values.length) :
    (manyWithin p bound cursor).result = some (values, after) := by
  induction repeats generalizing bound with
  | done =>
    obtain rfl := List.length_eq_zero_iff.mp long
    rfl
  | more here _ ih =>
    obtain _ | ⟨_, bound⟩ := bound
    · cases long
    · unfold manyWithin
      simp only [result_or, result_bind, here, ih (Nat.succ.inj long)]
      rfl

theorem joinAll_snoc (first : Expression) (values : List (BinaryOp × Expression)) (op : BinaryOp)
    (right : Expression) : joinAll first (values ++ [(op, right)]) =
      .binary op (joinAll first values) right ((joinAll first values).span.through right.span) := by
  rw [joinAll, List.foldl_append]
  rfl

theorem restored_chain {bound : List Char} {levels : Nat} (below : levels < 6)
    {first : Expression} {middle : Cursor} {values : List (BinaryOp × Expression)}
    (on : cursor.On source)
    (head : (chains (unaryWithin bound) levels cursor).result = some (first, middle))
    (repeats : Repeats (joined (chains (unaryWithin bound) levels) (5 - levels)) middle values after)
    (spread : Spread (joinAll first values).beginsInside (joinAll first values).endsInside cursor after
      (joinAll first values).span) : (joinAll first values).Restored source := by
  have calm := begins_chains (heads_unaryWithin bound) levels _ _ _ head
  have lower : 6 - levels = 5 - levels + 1 := by omega
  have viable (C : Comparison) : Viable C .token (chainWithin (chains (unaryWithin bound) levels)
      (5 - levels) (List.replicate values.length ' ')) (chains unary (levels + 1))
      (C.Agree Expression.move) (.loose (Stops (5 - levels))) := by
    have operands : Sampled C .token "true".toList (chains (unaryWithin bound) levels)
        (chains unary levels) (C.Agree Expression.move) (.loose (Stops (6 - levels))) :=
      sampled_chains (sampled_unaryWithin bound) heads_unary levels (Nat.le_of_lt below)
    rw [lower] at operands
    exact (sampled_chainWithin (Nat.sub_le 5 levels) operands (begins_chains heads_unary levels)
      _).toViable
  have read : (chainWithin (chains (unaryWithin bound) levels) (5 - levels)
      (List.replicate values.length ' ') cursor).result = some (joinAll first values, after) :=
    bind_some.mpr ⟨first, middle, head, bind_some.mpr ⟨values, after,
      manyWithin_of_repeats repeats List.length_replicate, rfl⟩⟩
  exact restored_of_viable viable (fun taken => taken.expression below) on (bare_of_calm calm) read
    spread

theorem covers_chains {bound : List Char} (unaries : Covers source (unaryWithin bound))
    (levels : Nat) (below : levels ≤ 6) : Covers source (chains (unaryWithin bound) levels) := by
  induction levels with
  | zero => exact unaries
  | succ levels ih =>
    have covers := ih (Nat.le_of_succ_le below)
    intro cursor value after on read
    obtain ⟨first, middle, head, read⟩ := bind_some.mp read
    obtain ⟨rest, _, repeated, read⟩ := bind_some.mp read
    cases read
    obtain ⟨spread, nodes⟩ := covers _ _ _ on head
    have toMiddle := Advances.reaches _ _ _ head
    let Behind (place : Cursor) (left : Expression) : Prop := ∃ values,
      Repeats (joined (chains (unaryWithin bound) levels) (5 - levels)) middle values place ∧
      left = joinAll first values ∧ Spread true true cursor place left.span ∧
      ∀ node ∈ left.nodes, node.Restored source
    have start : Behind middle first := ⟨[], .done middle, rfl, spread, nodes⟩
    suffices known : Behind after (joinAll first rest) from known.choose_spec.2.2
    refine manyWithin_foldl Behind ?_ start repeated
    rintro place ⟨op, right⟩ onward _ ⟨values, repeats, rfl, spread, nodes⟩ next
    have repeats' := repeats.append (.more next (.done onward))
    obtain ⟨_, _, gap, inner⟩ := bind_some.mp next
    obtain ⟨_, _, operator, inner⟩ := bind_some.mp inner
    obtain ⟨_, here, gap', inner⟩ := bind_some.mp inner
    obtain ⟨_, _, operand, inner⟩ := bind_some.mp inner
    cases inner
    have between : place.Reaches here := ((Advances.reaches _ _ _ gap).trans
      (Advances.reaches _ _ _ operator)).trans (Advances.reaches _ _ _ gap')
    obtain ⟨spread', nodes'⟩ := covers _ _ _
      (on.reaches ((toMiddle.trans repeats.reaches).trans between)) operand
    have whole := spread.through between spread'
    have restored : (joinAll first (values ++ [(op, right)])).Restored source := by
      refine restored_chain below on head repeats' ?_
      rw [joinAll_snoc]
      exact whole
    rw [joinAll_snoc] at restored
    exact ⟨_, repeats', (joinAll_snoc ..).symm, whole,
      List.forall_mem_cons.mpr ⟨restored, List.forall_mem_append.mpr ⟨nodes, nodes'⟩⟩⟩

theorem blanks_gap {value : Unit} (read : (blanks cursor).result = some (value, after))
    (more : after.rest ≠ []) : ∃ gap, Spacing gap ∧ cursor.rest = gap ++ after.rest ∧
      after.position = cursor.position.after gap := by
  obtain ⟨gap, rest, moved⟩ := Advances.reaches _ _ _ read
  have taken : Takes blanks cursor.position gap value after.rest := by
    rw [Takes, ← rest, ← moved]
    exact read
  exact ⟨gap, (skipped_of_takes taken).1.spacing more, rest, moved⟩

theorem literal_reads {text : String} {value : Unit}
    (read : (literal text cursor).result = some (value, after)) :
    cursor.rest = text.toList ++ after.rest ∧
      after.position = cursor.position.after text.toList := by
  have whole := literal_rest read
  obtain ⟨read', rest, moved⟩ := Advances.reaches _ _ _ read
  rw [whole] at rest
  exact ⟨whole, by rw [moved, List.append_cancel_right rest]⟩

theorem covers_wrapped (covers : Covers source inner) : Covers source (wrapped inner) := by
  intro cursor value after on read
  obtain ⟨_, first, opened, read⟩ := bind_some.mp read
  obtain ⟨_, here, blank, read⟩ := bind_some.mp read
  obtain ⟨_, place, inside, read⟩ := bind_some.mp read
  obtain ⟨_, last, blank', read⟩ := bind_some.mp read
  obtain ⟨_, _, closed, read⟩ := bind_some.mp read
  cases read
  obtain ⟨spread, nodes⟩ := covers _ _ _ (on.reaches ((Advances.reaches _ _ _ opened).trans
    (Advances.reaches _ _ _ blank))) inside
  obtain ⟨opens, afterOpen⟩ := literal_reads opened
  obtain ⟨closes, afterClose⟩ := literal_reads closed
  have more : last.rest ≠ [] := by
    rw [closes]
    exact List.cons_ne_nil _ _
  obtain ⟨gap', spacing', rest', moved'⟩ := blanks_gap blank' more
  have begun : here.rest ≠ [] := by
    obtain ⟨_, _, _, rest, -⟩ := spread
    rw [rest, rest']
    simp [more]
  obtain ⟨gap, spacing, rest, moved⟩ := blanks_gap blank begun
  refine ⟨spread.wrap ?_ ?_ spacing ?_ ?_ spacing', nodes⟩
  · rw [opens, rest]
    rfl
  · rw [moved, afterOpen, ← Position.after_append]
    rfl
  · rw [rest', closes]
    rfl
  · rw [afterClose, moved', ← Position.after_append]
    rfl

def LeafOver (cursor after : Cursor) (value : Expression) : Prop :=
  value.nodes = [value] ∧ value.beginsInside = false ∧ value.endsInside = false ∧
    value.span = ⟨cursor.position, after.position⟩

theorem ReadsLiteral.leafOver {p : Parser (Span → Expression)} (reads : ReadsLiteral p)
    (read : (spanned p cursor).result = some (value, after)) : LeafOver cursor after value := by
  obtain ⟨make, inner, rfl⟩ := spanned_some.mp read
  obtain ⟨value, type, -, rfl⟩ := reads _ _ _ inner
  exact ⟨rfl, rfl, rfl, rfl⟩

theorem leafOver_of_variableName (read : (variableName cursor).result = some (value, after)) :
    LeafOver cursor after value := by
  obtain ⟨_, _, here, read⟩ := bind_some.mp read
  cases read
  obtain ⟨make, inner, rfl⟩ := spanned_some.mp here
  obtain ⟨_, _, _, inner⟩ := bind_some.mp inner
  obtain ⟨_, _, _, inner⟩ := bind_some.mp inner
  obtain ⟨_, _, _, inner⟩ := bind_some.mp inner
  cases inner
  exact ⟨rfl, rfl, rfl, rfl⟩

theorem primary_cases (read : (primary inner cursor).result = some (value, after)) :
    LeafOver cursor after value ∨ (wrapped inner cursor).result = some (value, after) := by
  rcases or_some read with boolean | read
  · exact .inl (readsLiteral_boolean.leafOver boolean)
  rcases or_some read with address | read
  · exact .inl (readsLiteral_address.leafOver address)
  rcases or_some read with number | read
  · exact .inl (readsLiteral_number.leafOver number)
  rcases or_some read with string | read
  · exact .inl (readsLiteral_string.leafOver string)
  rcases or_some read with name | read
  · exact .inl (leafOver_of_variableName name)
  rcases or_some read with paren | none
  · exact .inr paren
  · cases none

abbrev Restores {α : Type} (source : List Char) (p : Parser α) (nodes : α → List Expression) : Prop :=
  LeoFront.Leads source .anywhere p (fun value => ∀ node ∈ nodes value, node.Restored source) .anywhere

theorem restores_flatMap {α : Type} {values : List α} {nodes : α → List Expression}
    (all : ∀ value ∈ values, ∀ node ∈ nodes value, node.Restored source) :
    ∀ node ∈ values.flatMap nodes, node.Restored source := by
  intro node member
  obtain ⟨value, among, inside⟩ := List.mem_flatMap.mp member
  exact all value among node inside

theorem Covers.restores [Advances p] (covers : Covers source p) :
    Restores source p Expression.nodes :=
  fun _ _ _ stands read => ⟨(covers _ _ _ stands.on read).2,
    .of_on (stands.on.reaches (Advances.reaches _ _ _ read))⟩

theorem leads_argumentNodes (each : Restores source p Expression.nodes) :
    LeoFront.Leads source .boundary (arguments p)
      (fun values => ∀ node ∈ Expression.nodesOfEach values, node.Restored source) .anywhere := by
  have item : LeoFront.Leads source .boundary p
      (fun value => ∀ node ∈ value.nodes, node.Restored source) .anywhere :=
    fun cursor value after stands => each cursor value after stands.anywhere
  refine (leads_possiblyEmpty ((leads_separated item).imp fun _ => And.right)).imp fun values all => ?_
  rw [Expression.nodesOfEach_eq_flatMap]
  exact restores_flatMap all

def Suffix.nodes : Suffix → List Expression
  | .call arguments => Expression.nodesOfEach arguments
  | .access _ => []

theorem Suffix.nodes_apply (target : Expression) (suffix : Suffix) (stop : Position) :
    (Suffix.apply target (suffix, stop)).nodes =
      Suffix.apply target (suffix, stop) :: (target.nodes ++ suffix.nodes) := by
  cases suffix with
  | call arguments => rfl
  | access member => exact congrArg (List.cons _) (List.append_nil _).symm

theorem Suffix.span_apply (target : Expression) (suffix : Suffix) (stop : Position) :
    (Suffix.apply target (suffix, stop)).span = ⟨target.span.start, stop⟩ ∧
      (Suffix.apply target (suffix, stop)).beginsInside = true ∧
      (Suffix.apply target (suffix, stop)).endsInside = false := by
  cases suffix <;> exact ⟨rfl, rfl, rfl⟩

theorem restored_suffixed {bound : List Char} {target : Expression} {middle : Cursor}
    {suffixes : List (Suffix × Position)} (on : cursor.On source)
    (head : (primary (expressionOver (unaryWithin bound)) cursor).result = some (target, middle))
    (repeats : Repeats (further (expressionOver (unaryWithin bound))) middle suffixes after)
    (spread : Spread (suffixes.foldl Suffix.apply target).beginsInside
      (suffixes.foldl Suffix.apply target).endsInside cursor after
      (suffixes.foldl Suffix.apply target).span) :
    (suffixes.foldl Suffix.apply target).Restored source := by
  have viable (C : Comparison) : Viable C .token (suffixedWithin (expressionOver (unaryWithin bound))
      (List.replicate suffixes.length ' ')) (suffixed (expressionOver unary))
      (C.Agree Expression.move) (.loose (Stops 6)) := by
    have items : Sampled C .token "true".toList (expressionOver (unaryWithin bound))
        (expressionOver unary) (C.Agree Expression.move) (.loose (Stops 0)) :=
      sampled_chains (sampled_unaryWithin bound) heads_unary 6 (Nat.le_refl 6)
    exact (sampled_suffixedWithin items (begins_chains heads_unary 6) _).toViable
  have calm := (heads_primary _).widen calm_of_unsigned _ _ _ head
  have read : (suffixedWithin (expressionOver (unaryWithin bound)) (List.replicate suffixes.length ' ')
      cursor).result = some (suffixes.foldl Suffix.apply target, after) :=
    bind_some.mpr ⟨target, middle, head, bind_some.mpr ⟨suffixes, after,
      manyWithin_of_repeats repeats List.length_replicate, rfl⟩⟩
  exact restored_of_viable viable Takes.of_suffixed on (bare_of_calm calm) read spread

section
variable {bound : List Char} (covers : Covers source (expressionOver (unaryWithin bound)))
include covers

theorem covers_primary : Covers source (primary (expressionOver (unaryWithin bound))) := by
  intro cursor value after on read
  rcases primary_cases read with ⟨leaf, begins, ends, span⟩ | paren
  · have spread := Spread.whole (Advances.reaches _ _ _ read)
    rw [← span] at spread
    refine ⟨spread.loosen, ?_⟩
    rw [leaf, List.forall_mem_singleton]
    have viable (C : Comparison) : Viable C .token (primary (expressionOver (unaryWithin bound)))
        (primary (expressionOver unary)) (C.Agree Expression.move) (.loose (Stops 6)) :=
      (sampled_primary (sampled_chains (sampled_unaryWithin bound) heads_unary 6
        (Nat.le_refl 6))).toViable
    have calm := (heads_primary _).widen calm_of_unsigned _ _ _ read
    refine restored_of_viable viable Takes.of_primary on (bare_of_calm calm) read ?_
    rwa [begins, ends]
  · exact covers_wrapped covers _ _ _ on paren

theorem restores_suffix :
    Restores source (suffix (expressionOver (unaryWithin bound))) (·.1.nodes) := by
  refine .or (.spanned ?_) (.or (.spanned ?_) .fail)
  · exact .skip (leads_literal (by decide)) fun _ => .skip leads_blanks fun _ =>
      .bind (leads_argumentNodes covers.restores) fun _ all => .skip leads_blanks fun _ =>
      .skip leads_token fun _ => .pure fun _ => all
  · exact .skip leads_token fun _ => .skip leads_blanks fun _ =>
      .skip leads_token fun _ => .pure fun _ => nofun

theorem covers_suffixed : Covers source (suffixed (expressionOver (unaryWithin bound))) := by
  intro cursor value after on read
  obtain ⟨target, middle, head, read⟩ := bind_some.mp read
  obtain ⟨suffixes, _, repeated, read⟩ := bind_some.mp read
  cases read
  obtain ⟨spread, nodes⟩ := covers_primary covers _ _ _ on head
  have toMiddle := Advances.reaches _ _ _ head
  let Behind (place : Cursor) (value : Expression) : Prop := ∃ suffixes,
    Repeats (further (expressionOver (unaryWithin bound))) middle suffixes place ∧
    value = suffixes.foldl Suffix.apply target ∧ Spread true true cursor place value.span ∧
    ∀ node ∈ value.nodes, node.Restored source
  have start : Behind middle target := ⟨[], .done middle, rfl, spread, nodes⟩
  suffices known : Behind after (suffixes.foldl Suffix.apply target) from known.choose_spec.2.2
  refine manyWithin_foldl Behind ?_ start repeated
  rintro place ⟨suffix, stop⟩ onward _ ⟨suffixes, repeats, rfl, spread, nodes⟩ next
  have repeats' := repeats.append (.more next (.done onward))
  obtain ⟨_, here, gap, inner⟩ := bind_some.mp next
  obtain rfl : stop = onward.position := suffix_stop inner
  have stands := (on.reaches ((toMiddle.trans repeats.reaches).trans (Advances.reaches _ _ _ gap)))
  have inside := (restores_suffix covers _ _ _ (.of_on stands) inner).1
  have whole := spread.behind (Advances.reaches _ _ _ next)
  obtain ⟨span, begins, ends⟩ :=
    Suffix.span_apply (suffixes.foldl Suffix.apply target) suffix onward.position
  have joined : (suffixes ++ [(suffix, onward.position)]).foldl Suffix.apply target =
      Suffix.apply (suffixes.foldl Suffix.apply target) (suffix, onward.position) := by
    rw [List.foldl_append]
    rfl
  have restored := restored_suffixed on head repeats' (by rwa [joined, begins, ends, span])
  rw [joined] at restored
  refine ⟨_, repeats', joined.symm, by rw [span]; exact whole.loosen, ?_⟩
  rw [Suffix.nodes_apply]
  exact List.forall_mem_cons.mpr ⟨restored, List.forall_mem_append.mpr ⟨nodes, inside⟩⟩

end

theorem covers_unaryWithin (bound : List Char) : Covers source (unaryWithin bound) := by
  induction bound with
  | nil => exact fun _ _ _ _ read => nomatch read
  | cons c bound ih =>
    intro cursor value after on read
    have reaches := Advances.reaches _ _ _ read
    have calm := heads_unaryWithin (c :: bound) _ _ _ read
    rcases or_some read with signed | others
    · obtain ⟨make, inner, rfl⟩ := spanned_some.mp signed
      obtain ⟨op, _, sign, inner⟩ := bind_some.mp inner
      obtain ⟨_, _, gap, inner⟩ := bind_some.mp inner
      obtain ⟨operand, _, within, inner⟩ := bind_some.mp inner
      cases inner
      have between := (Advances.reaches _ _ _ sign).trans (Advances.reaches _ _ _ gap)
      have viable (C : Comparison) : Viable C .token (unaryWithin (c :: bound)) (chains unary 0)
          (C.Agree Expression.move) (.loose (Stops 6)) := (sampled_unaryWithin (c :: bound)).toViable
      have restored := restored_of_viable viable (fun taken => taken.expression (Nat.zero_le 6)) on
        (bare_of_calm calm) read (Spread.whole reaches)
      exact ⟨(Spread.whole reaches).loosen,
        List.forall_mem_cons.mpr ⟨restored, (ih _ _ _ (on.reaches between) within).2⟩⟩
    rcases or_some others with suffixed | none
    · exact covers_suffixed (covers_chains ih 6 (Nat.le_refl 6)) _ _ _ on suffixed
    · cases none

theorem covers_expression : Covers source expression :=
  fun cursor => covers_chains (covers_unaryWithin cursor.bound) 6 (Nat.le_refl 6) cursor

end Grammar

end LeoFront

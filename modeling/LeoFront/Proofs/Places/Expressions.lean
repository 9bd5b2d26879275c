import LeoFront.Proofs.Places.Reading
import LeoFront.Proofs.RoundTrip.Words

namespace LeoFront.Grammar
open LeoFront.Parser
variable {α β : Type} {source : List Char} {cursor after : Cursor}

theorem places_identifier :
    Places source identifier fun identifier => [identifier.outline] := by
  refine .leaf (.guarded fun _ => (consumes_oneOf wordStart).bind) fun cursor make after read => ?_
  obtain ⟨_, _, guarded, read⟩ := bind_some.mp read
  obtain ⟨first, _, here, read⟩ := bind_some.mp read
  obtain ⟨rest, _, onward, read⟩ := bind_some.mp read
  cases read
  refine ⟨first :: rest, ?_, fun span => ?_⟩
  · rw [guardRest_rest guarded, oneOf_rest here, manyOf_rest onward, List.cons_append]
  · rw [Identifier.outline, String.toList_ofList]

theorem places_separated {item : Parser α} [Advances item] {view : α → List Outline}
    (places : Places source item view) :
    Places source (separated item) fun items => items.flatMap view := by
  refine .of_lays (.bind places fun first => .bind (.many (.of_lays ?_)) fun rest => .pure rfl)
  exact .skip fun _ => .skip fun _ => .skip fun _ => .last places fun _ => rfl

theorem places_separatedTrailing {item : Parser α} [Advances item] {view : α → List Outline}
    (places : Places source item view) :
    Places source (separatedTrailing item) fun items => items.flatMap view :=
  .of_lays (.bind (places_separated places) fun _ => .skip fun _ => .pure rfl)

theorem places_possiblyEmpty {items : Parser (List α)} [Advances items] {view : α → List Outline}
    (places : Places source items fun items => items.flatMap view) :
    Places source (possiblyEmpty items) fun items => items.flatMap view := by
  refine .of_lays (.bind places.optional fun items => .pure ?_)
  cases items <;> simp

theorem places_type : Places source type Ty.outlines := by
  refine .or (.of_lays ?_) (.or (.of_lays ?_) (.or (.of_lays ?_) .firstOf_nil))
  · exact .skip fun _ => .pure rfl
  · exact .skip fun _ => .pure rfl
  · exact .bind places_identifier fun _ => .pure rfl

theorem integerWord_rest {type : Primitive}
    (read : (integerWord cursor).result = some (type, after)) :
    ∃ integer, type = .integer integer ∧ cursor.rest = integer.text.toList ++ after.rest := by
  obtain ⟨integer, _, here, read⟩ := bind_some.mp read
  obtain ⟨_, _, ends, read⟩ := bind_some.mp read
  cases read
  rw [← guardRest_rest ends]
  obtain ⟨sign, _, first, read⟩ := bind_some.mp here
  obtain ⟨width, _, digits, read⟩ := bind_some.mp read
  cases read
  obtain ⟨choice, member, rfl, written⟩ := oneText_rest digits
  refine ⟨_, rfl, ?_⟩
  rw [integerText_of_sign (oneOf_contains first) member, oneOf_rest first, written,
    List.cons_append]

theorem numberSuffix_rest {type : Primitive}
    (read : (numberSuffix cursor).result = some (type, after)) (value : String) :
    value.toList ++ cursor.rest = type.literal value ++ after.rest := by
  rcases or_some read with integer | read
  · obtain ⟨type, rfl, written⟩ := integerWord_rest integer
    rw [written, ← List.append_assoc]
    rfl
  rcases or_some read with suffix | none
  · obtain ⟨choice, member, rfl, written⟩ := oneWord_rest suffix
    have known : ∀ choice ∈ fieldSuffixes, choice.2.literal value =
        value.toList ++ choice.1.toList := by
      simp only [fieldSuffixes, List.forall_mem_cons, List.not_mem_nil, false_implies,
        implies_true, and_true]
      exact ⟨rfl, rfl, rfl⟩
    rw [written, ← List.append_assoc, known choice member]
  · cases none

theorem places_booleanLiteral :
    Places source (spanned booleanLiteral) fun expression => [expression.outline] := by
  refine .leaf (consumes_oneWord (by decide)).bind fun cursor make after read => ?_
  obtain ⟨value, _, here, read⟩ := bind_some.mp read
  cases read
  obtain ⟨choice, member, rfl, written⟩ := oneWord_rest here
  refine ⟨choice.1.toList, written, fun span => ?_⟩
  have known : ∀ choice ∈ [("true", "true"), ("false", "false")], choice.1 = choice.2 := by
    decide
  rw [known choice member]
  rfl

theorem places_addressLiteral :
    Places source (spanned addressLiteral) fun expression => [expression.outline] := by
  refine .leaf (consumes_literal (by decide)).bind fun cursor make after read => ?_
  obtain ⟨_, _, marked, read⟩ := bind_some.mp read
  obtain ⟨rest, _, here, read⟩ := bind_some.mp read
  cases read
  refine ⟨"aleo1".toList ++ rest, ?_, fun span => ?_⟩
  · rw [literal_rest marked, someOf_rest here, List.append_assoc]
  · simp [Expression.outline, Primitive.literal]

theorem places_numberLiteral :
    Places source (spanned numberLiteral) fun expression => [expression.outline] := by
  refine .leaf (consumes_someOf digit).bind fun cursor make after read => ?_
  obtain ⟨digits, _, here, read⟩ := bind_some.mp read
  obtain ⟨type, _, typed, read⟩ := bind_some.mp read
  cases read
  refine ⟨type.literal (String.ofList digits), ?_, fun span => rfl⟩
  rw [someOf_rest here, ← numberSuffix_rest typed, String.toList_ofList]

theorem places_stringLiteral :
    Places source (spanned stringLiteral) fun expression => [expression.outline] := by
  refine .leaf (consumes_literal (by decide)).bind fun cursor make after read => ?_
  obtain ⟨_, _, opened, read⟩ := bind_some.mp read
  obtain ⟨value, _, here, read⟩ := bind_some.mp read
  obtain ⟨_, _, closed, read⟩ := bind_some.mp read
  cases read
  refine ⟨"\"".toList ++ value ++ "\"".toList, ?_, fun span => ?_⟩
  · rw [literal_rest opened, manyOf_rest here, literal_rest closed, List.append_assoc,
      List.append_assoc]
  · simp [Expression.outline, Primitive.literal]

theorem places_variableName :
    Places source variableName fun expression => [expression.outline] :=
  .of_lays (.bind places_identifier fun _ => .pure rfl)

variable {p : Parser α}

theorem manyWithin_foldl (holds : Cursor → β → Prop) {step : β → α → β}
    (keeps : ∀ cursor value after state, holds cursor state →
      (p cursor).result = some (value, after) → holds after (step state value))
    {bound : List Char} {values : List α} {state : β} (start : holds cursor state)
    (read : (manyWithin p bound cursor).result = some (values, after)) :
    holds after (values.foldl step state) := by
  induction bound generalizing cursor values state with
  | nil =>
    cases read
    exact start
  | cons _ bound ih =>
    rcases or_some read with more | done
    · obtain ⟨first, middle, here, more⟩ := bind_some.mp more
      obtain ⟨rest, final, later, more⟩ := bind_some.mp more
      cases more
      rw [List.foldl_cons]
      exact ih (keeps _ _ _ _ start here) later
    · cases done
      exact start

theorem places_leftChain {operand : Parser Expression} {operator : Parser BinaryOp}
    [Advances operand] [Advances operator]
    (places : Places source operand fun expression => [expression.outline]) :
    Places source (leftChain operand operator) fun expression => [expression.outline] := by
  intro cursor value after on read
  obtain ⟨first, middle, head, read⟩ := bind_some.mp read
  obtain ⟨rest, _, repeated, read⟩ := bind_some.mp read
  cases read
  let Behind (place : Cursor) (left : Expression) : Prop := place.On source ∧
    Laid source cursor.position.offset place.position.offset [left.outline]
  have start : Behind middle first :=
    ⟨on.reaches (Advances.reaches _ _ _ head), places _ _ _ on head⟩
  refine (manyWithin_foldl Behind ?_ start repeated).2
  rintro place ⟨op, right⟩ onward left ⟨on, laid⟩ read
  have lays : Lays source [left.outline] (do
      blanks
      let op ← operator
      blanks
      let right ← operand
      return (op, right)) fun next outlines => [left.outline, next.2.outline] = outlines :=
    .skip fun _ => .skip fun _ => .skip fun _ => .bind places fun _ => .pure rfl
  obtain ⟨_, rfl, laid⟩ := lays _ _ _ _ on laid read
  refine ⟨on.reaches (Advances.reaches _ _ _ read), ?_⟩
  have joined := laid.node_through
  rw [Expression.outline_span, Expression.outline_span] at joined
  exact joined

def Suffix.outlines : Suffix → List Outline
  | .call arguments => Expression.outlineEach arguments
  | .access member => [member.outline]

theorem places_arguments {expression : Parser Expression} [Advances expression]
    (places : Places source expression fun expression => [expression.outline]) :
    Places source (arguments expression) Expression.outlineEach := by
  have list := places_possiblyEmpty (places_separated places)
  simp only [← Expression.outlineEach_eq_flatMap] at list
  exact list

theorem places_suffix {expression : Parser Expression} [Advances expression]
    (places : Places source expression fun expression => [expression.outline]) :
    Places source (suffix expression) fun value => value.1.outlines := by
  refine .or (.spanned ?_) (.or (.spanned ?_) .firstOf_nil)
  · exact .skip fun _ => .skip fun _ => .bind (places_arguments places) fun _ =>
      .skip fun _ => .skip fun _ => .pure fun _ => rfl
  · exact .skip fun _ => .skip fun _ => .bind places_identifier fun _ => .pure fun _ => rfl

theorem suffix_stop {expression : Parser Expression} {value : Suffix × Position}
    (read : (suffix expression cursor).result = some (value, after)) :
    value.2 = after.position := by
  rcases or_some read with call | read
  · obtain ⟨make, inner, rfl⟩ := spanned_some.mp call
    obtain ⟨_, _, _, read⟩ := bind_some.mp inner
    obtain ⟨_, _, _, read⟩ := bind_some.mp read
    obtain ⟨_, _, _, read⟩ := bind_some.mp read
    obtain ⟨_, _, _, read⟩ := bind_some.mp read
    obtain ⟨_, _, _, read⟩ := bind_some.mp read
    cases read
    rfl
  rcases or_some read with access | none
  · obtain ⟨make, inner, rfl⟩ := spanned_some.mp access
    obtain ⟨_, _, _, read⟩ := bind_some.mp inner
    obtain ⟨_, _, _, read⟩ := bind_some.mp read
    obtain ⟨_, _, _, read⟩ := bind_some.mp read
    cases read
    rfl
  · cases none

theorem Suffix.outline_apply (target : Expression) (suffix : Suffix) (stop : Position) :
    (Suffix.apply target (suffix, stop)).outline =
      .node ⟨target.outline.span.start, stop⟩ none (target.outline :: suffix.outlines) := by
  rw [Expression.outline_span]
  cases suffix <;> rfl

theorem places_primary {expression : Parser Expression} [Advances expression]
    (places : Places source expression fun expression => [expression.outline]) :
    Places source (primary expression) fun expression => [expression.outline] := by
  refine .or places_booleanLiteral (.or places_addressLiteral (.or places_numberLiteral
    (.or places_stringLiteral (.or places_variableName (.or (.of_lays ?_) .firstOf_nil)))))
  exact .skip fun _ => .skip fun _ => .bind places fun _ => .skip fun _ => .skip fun _ => .pure rfl

theorem places_suffixed {expression : Parser Expression} [Advances expression]
    (places : Places source expression fun expression => [expression.outline]) :
    Places source (suffixed expression) fun expression => [expression.outline] := by
  intro cursor value after on read
  obtain ⟨target, middle, head, read⟩ := bind_some.mp read
  obtain ⟨suffixes, _, repeated, read⟩ := bind_some.mp read
  cases read
  let Behind (place : Cursor) (target : Expression) : Prop := place.On source ∧
    Laid source cursor.position.offset place.position.offset [target.outline]
  have start : Behind middle target :=
    ⟨on.reaches (Advances.reaches _ _ _ head), places_primary places _ _ _ on head⟩
  refine (manyWithin_foldl Behind ?_ start repeated).2
  rintro place ⟨suffix, stop⟩ onward target ⟨on, laid⟩ read
  obtain ⟨_, behind, blank, read⟩ := bind_some.mp read
  have blank := Advances.reaches _ _ _ blank
  have on := on.reaches blank
  have laid := (laid.mono (Nat.le_refl _) blank.offset_le).append (places_suffix places _ _ _ on read)
  have onward := on.reaches (Advances.reaches _ _ _ read)
  obtain rfl : stop = _ := suffix_stop read
  refine ⟨onward, ?_⟩
  rw [Suffix.outline_apply]
  exact laid.node_from onward.position_in

theorem places_expressionOver {unary : Parser Expression} [Advances unary]
    (places : Places source unary fun expression => [expression.outline]) :
    Places source (expressionOver unary) fun expression => [expression.outline] := by
  unfold expressionOver orOperator andOperator equalityOperator comparisonOperator
  exact places_leftChain (places_leftChain (places_leftChain (places_leftChain (places_leftChain
    (places_leftChain places)))))

theorem places_unaryWithin (bound : List Char) :
    Places source (unaryWithin bound) fun expression => [expression.outline] := by
  induction bound with
  | nil =>
    intro _ _ _ _ read
    cases read
  | cons _ bound ih =>
    refine .or (.node ?_) (.or (places_suffixed (places_expressionOver ih)) .firstOf_nil)
    exact .skip fun _ => .skip fun _ => .bind ih fun _ => .pure ⟨nofun, fun _ => rfl⟩

theorem places_expression :
    Places source expression fun expression => [expression.outline] :=
  fun cursor value after on read =>
    places_expressionOver (places_unaryWithin cursor.bound) cursor value after on read

end LeoFront.Grammar

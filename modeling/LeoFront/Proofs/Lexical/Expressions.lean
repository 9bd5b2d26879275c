import LeoFront.Proofs.Lexical.Boundaries
import LeoFront.Proofs.RoundTrip.Literals

namespace LeoFront.Grammar
open LeoFront.Parser
variable {α : Type} {source : List Char} {cursor after : Cursor} {stand : Stand}

abbrev SoundExpression (source : List Char) : Expression → Prop :=
  Sound source Expression.WellFormed Expression.names

theorem soundExpressions {expressions : List Expression}
    (each : ∀ expression ∈ expressions, SoundExpression source expression) :
    Sound source Expression.EachWellFormed Expression.namesOfEach expressions :=
  sound_each each ⟨trivial, rfl⟩ fun _ _ => ⟨And.intro, rfl⟩

section
variable {item : Parser α} {good : α → Prop}

theorem leads_separated (leads : Leads source .boundary item good .anywhere) :
    Leads source .boundary (separated item)
      (fun items => items ≠ [] ∧ ∀ item ∈ items, good item) .anywhere := by
  have more : Leads source .anywhere (do
      blanks
      literal ","
      blanks
      item) good .anywhere :=
    .skip leads_blanks fun _ => .skip (leads_literal (by decide)) fun _ =>
      .skip leads_blanks fun _ => leads
  refine .bind leads fun first known => .bind more.many fun rest others => .pure ?_
  exact ⟨List.cons_ne_nil first rest, List.forall_mem_cons.mpr ⟨known, others⟩⟩

theorem leads_separatedTrailing (leads : Leads source .boundary item good .anywhere) :
    Leads source .boundary (separatedTrailing item) (fun items => ∀ item ∈ items, good item)
      .anywhere :=
  .bind (leads_separated leads) fun _ all => .skip leads_token fun _ => .pure all.2

theorem leads_possiblyEmpty {items : Parser (List α)}
    (leads : Leads source .boundary items (fun items => ∀ item ∈ items, good item) .anywhere) :
    Leads source .boundary (possiblyEmpty items) (fun items => ∀ item ∈ items, good item)
      .anywhere := by
  have some : Leads source .boundary (optional items)
      (fun items => ∀ item ∈ items.getD [], good item) .anywhere :=
    .or (.bind leads fun _ all => .pure all) (Leads.pure (by simp)).to_anywhere
  exact .bind some fun _ all => .pure all

end

def ReadsLiteral (p : Parser (Span → Expression)) : Prop :=
  ∀ cursor make after, (p cursor).result = some (make, after) →
    ∃ value type, Primitive.Fits value type ∧ make = .literal value type

theorem readsLiteral_boolean : ReadsLiteral booleanLiteral := by
  intro cursor make after read
  obtain ⟨value, _, here, read⟩ := bind_some.mp read
  cases read
  obtain ⟨choice, member, rfl, -⟩ := oneWord_rest here
  have known : ∀ choice ∈ [("true", "true"), ("false", "false")],
      choice.2 = "true" ∨ choice.2 = "false" := by decide
  exact ⟨_, .boolean, known choice member, rfl⟩

theorem readsLiteral_address : ReadsLiteral addressLiteral := by
  intro cursor make after read
  obtain ⟨_, _, -, read⟩ := bind_some.mp read
  obtain ⟨rest, _, here, read⟩ := bind_some.mp read
  cases read
  refine ⟨_, .address, ⟨rest, by simp, ?_, someOf_contains here⟩, rfl⟩
  rintro rfl
  exact absurd (consumes_someOf addressPart _ _ _ here) (by simp [someOf_rest here])

theorem numberSuffix_ok {type : Primitive}
    (read : (numberSuffix cursor).result = some (type, after)) :
    type ≠ .address ∧ type ≠ .boolean ∧ type ≠ .string := by
  rcases or_some read with integer | read
  · obtain ⟨type, rfl, -⟩ := integerWord_rest integer
    simp
  rcases or_some read with suffix | none
  · obtain ⟨choice, member, rfl, -⟩ := oneWord_rest suffix
    have others : ∀ choice ∈ fieldSuffixes,
        choice.2 ≠ .address ∧ choice.2 ≠ .boolean ∧ choice.2 ≠ .string := by decide
    exact others choice member
  · cases none

theorem readsLiteral_number : ReadsLiteral numberLiteral := by
  intro cursor make after read
  obtain ⟨digits, _, here, read⟩ := bind_some.mp read
  obtain ⟨type, _, typed, read⟩ := bind_some.mp read
  cases read
  have nonempty : digits ≠ [] := by
    rintro rfl
    exact absurd (consumes_someOf digit _ _ _ here) (by simp [someOf_rest here])
  have number : (String.ofList digits).toList ≠ [] ∧
      ∀ c ∈ (String.ofList digits).toList, digit.contains c = true := by
    rw [String.toList_ofList]
    exact ⟨nonempty, someOf_contains here⟩
  refine ⟨_, type, ?_, rfl⟩
  obtain ⟨noAddress, noBoolean, noString⟩ := numberSuffix_ok typed
  cases type with
  | address => exact absurd rfl noAddress
  | boolean => exact absurd rfl noBoolean
  | string => exact absurd rfl noString
  | field | group | scalar | integer type => exact number

theorem readsLiteral_string : ReadsLiteral stringLiteral := by
  intro cursor make after read
  obtain ⟨_, _, -, read⟩ := bind_some.mp read
  obtain ⟨value, _, here, read⟩ := bind_some.mp read
  obtain ⟨_, _, -, read⟩ := bind_some.mp read
  cases read
  refine ⟨_, .string, ?_, rfl⟩
  intro quote
  rw [String.toList_ofList] at quote
  have part := (manyOf_ends here).1 _ quote
  revert part
  decide

theorem leads_literalOf {p : Parser (Span → Expression)} [Advances p]
    (reads : ReadsLiteral p) :
    Leads source stand (spanned p) (SoundExpression source) .anywhere := by
  refine .spanned fun cursor make after stands read => ?_
  obtain ⟨-, ends⟩ := leads_token cursor make after stands read
  obtain ⟨value, type, fits, rfl⟩ := reads cursor make after read
  exact ⟨fun span => ⟨fits, by simp [Expression.names]⟩, ends⟩

theorem not_startsAddress {name : String} (written : cursor.rest = name.toList ++ after.rest)
    (noAddress : (spanned addressLiteral cursor).result = none) : ¬ StartsAddress name := by
  rintro ⟨c, rest, same, part⟩
  rw [same, List.append_assoc, List.cons_append] at written
  let behind := c :: (rest ++ after.rest)
  have nonempty : behind.takeWhile addressPart.contains ≠ [] := by simp [behind, part]
  have stops : ∀ c ∈ (behind.dropWhile addressPart.contains).head?,
      addressPart.contains c = false := by
    intro c head
    have stops := List.head?_dropWhile_not addressPart.contains behind
    simpa [Option.mem_def.mp head] using stops
  have address := accepts_addressText nonempty (fun _ => List.mem_takeWhile_imp) stops
  rw [List.takeWhile_append_dropWhile, ← written] at address
  obtain ⟨_, _, read, -⟩ := address cursor.position
  cases read.symm.trans noAddress

theorem variableName_ok {expression : Expression}
    (stands : cursor.Stands source .boundary)
    (noAddress : (spanned addressLiteral cursor).result = none)
    (read : (variableName cursor).result = some (expression, after)) :
    SoundExpression source expression ∧ after.Stands source .boundary := by
  obtain ⟨name, _, here, read⟩ := bind_some.mp read
  cases read
  obtain ⟨whole, ends⟩ := leads_identifier _ _ _ stands here
  obtain ⟨-, written, -, -⟩ := identifier_ok here
  exact ⟨⟨⟨whole.isName, not_startsAddress written noAddress⟩,
    by simpa [Expression.names] using whole⟩, ends⟩

section
variable {expression : Parser Expression}
  (expressions : Leads source .boundary expression (SoundExpression source) .anywhere)
include expressions

theorem leads_primary :
    Leads source .boundary (primary expression) (SoundExpression source) .anywhere := by
  have wrapped : Leads source .boundary (do
      literal "("
      blanks
      let inner ← expression
      blanks
      literal ")"
      return inner) (SoundExpression source) .anywhere :=
    .skip (leads_literal (by decide)) fun _ => .skip leads_blanks fun _ =>
      .bind expressions fun _ known => .skip leads_blanks fun _ =>
      .skip leads_token fun _ => .pure known
  intro cursor value after stands read
  rcases or_some read with boolean | read
  · exact leads_literalOf readsLiteral_boolean cursor value after stands boolean
  rcases or_failed read with address | ⟨noAddress, read⟩
  · exact leads_literalOf readsLiteral_address cursor value after stands address
  rcases or_some read with number | read
  · exact leads_literalOf readsLiteral_number cursor value after stands number
  rcases or_some read with string | read
  · exact leads_literalOf readsLiteral_string cursor value after stands string
  rcases or_some read with name | read
  · obtain ⟨known, ends⟩ := variableName_ok stands noAddress name
    exact ⟨known, ends.anywhere⟩
  rcases or_some read with inner | none
  · exact wrapped cursor value after stands inner
  · cases none

theorem leads_arguments : Leads source .boundary (arguments expression)
    (Sound source Expression.EachWellFormed Expression.namesOfEach) .anywhere :=
  (leads_possiblyEmpty ((leads_separated expressions).imp fun _ => And.right)).imp
    fun _ => soundExpressions

def Suffix.Sound (source : List Char) : Suffix → Prop
  | .call arguments =>
    LeoFront.Sound source Expression.EachWellFormed Expression.namesOfEach arguments
  | .access member => member.Whole source

theorem leads_suffix : Leads source .anywhere (suffix expression)
    (fun suffix => suffix.1.Sound source) .anywhere := by
  refine .or (.spanned ?_) (.or (.spanned ?_) .fail)
  · exact .skip (leads_literal (by decide)) fun _ => .skip leads_blanks fun _ =>
      .bind (leads_arguments expressions) fun _ known => .skip leads_blanks fun _ =>
      .skip leads_token fun _ => .pure fun _ => known
  · exact .skip (leads_literal (by decide)) fun _ => .skip leads_blanks fun _ =>
      .bind leads_identifier.to_anywhere fun _ known => .pure fun _ => known

omit expressions in
theorem Suffix.Sound.apply {suffix : Suffix × Position} (known : suffix.1.Sound source)
    {target : Expression} (sound : SoundExpression source target) :
    SoundExpression source (Suffix.apply target suffix) := by
  obtain ⟨suffix, stop⟩ := suffix
  cases suffix with
  | call arguments => exact ⟨⟨sound.1, known.1⟩, List.forall_mem_append.mpr ⟨sound.2, known.2⟩⟩
  | access member =>
    have whole : ∀ name ∈ [member], name.Whole source := List.forall_mem_singleton.mpr known
    exact ⟨⟨sound.1, known.isName⟩, List.forall_mem_append.mpr ⟨sound.2, whole⟩⟩

theorem leads_suffixed :
    Leads source .boundary (suffixed expression) (SoundExpression source) .anywhere := by
  have more : Leads source .anywhere (do
      blanks
      suffix expression) (fun suffix => suffix.1.Sound source) .anywhere :=
    .skip leads_blanks fun _ => leads_suffix expressions
  refine .bind (leads_primary expressions) fun target sound => .bind more.many fun suffixes all => ?_
  exact .pure (List.foldlRecOn suffixes _ sound fun _ sound _ member => (all _ member).apply sound)

end

theorem leads_operator {choices : List (String × α)} (symbols : Symbols (choices.map (·.1))) :
    Leads source stand (oneText choices) (fun _ => True) .boundary :=
  leads_symbol (readsOneOf_oneText fun _ => List.mem_map_of_mem) symbols

theorem leads_leftChain {operand : Parser Expression} {operator : Parser BinaryOp}
    (operands : Leads source .boundary operand (SoundExpression source) .anywhere)
    (operators : Leads source .anywhere operator (fun _ => True) .boundary) :
    Leads source .boundary (leftChain operand operator) (SoundExpression source) .anywhere := by
  have more : Leads source .anywhere (do
      blanks
      let op ← operator
      blanks
      let right ← operand
      return (op, right)) (fun next => SoundExpression source next.2) .anywhere :=
    .skip leads_blanks fun _ => .skip operators fun _ => .skip leads_blanks fun _ =>
      .bind operands fun _ known => .pure known
  refine .bind operands fun first sound => .bind more.many fun rest all => ?_
  refine .pure (List.foldlRecOn rest _ sound fun left sound next member => ?_)
  obtain ⟨wellFormed, names⟩ := all next member
  exact ⟨⟨sound.1, wellFormed⟩, List.forall_mem_append.mpr ⟨sound.2, names⟩⟩

theorem leads_expressionOver {unary : Parser Expression}
    (unaries : Leads source .boundary unary (SoundExpression source) .anywhere) :
    Leads source .boundary (expressionOver unary) (SoundExpression source) .anywhere := by
  have multiplicative : Leads source .anywhere multiplicativeOperator (fun _ => True) .boundary :=
    leads_symbol readsOneOf_multiplicativeOperator (by decide)
  have additive : Leads source .anywhere additiveOperator (fun _ => True) .boundary :=
    leads_symbol readsOneOf_additiveOperator (by decide)
  have comparison : Leads source .anywhere comparisonOperator (fun _ => True) .boundary :=
    leads_operator (by decide)
  have equality : Leads source .anywhere equalityOperator (fun _ => True) .boundary :=
    leads_operator (by decide)
  have conjunction : Leads source .anywhere andOperator (fun _ => True) .boundary :=
    leads_operator (by decide)
  have disjunction : Leads source .anywhere orOperator (fun _ => True) .boundary :=
    leads_operator (by decide)
  exact leads_leftChain (leads_leftChain (leads_leftChain (leads_leftChain
    (leads_leftChain (leads_leftChain unaries multiplicative) additive) comparison) equality)
      conjunction) disjunction

theorem leads_unaryWithin (bound : List Char) :
    Leads source .boundary (unaryWithin bound) (SoundExpression source) .anywhere := by
  induction bound with
  | nil => exact .fail
  | cons _ bound ih =>
    refine .or (.spanned ?_) (.or (leads_suffixed (leads_expressionOver ih)) .fail)
    exact .skip (leads_operator (by decide)) fun _ => .skip leads_blanks fun _ =>
      .bind ih fun _ known => .pure fun _ => known

theorem leads_expression :
    Leads source .boundary expression (SoundExpression source) .anywhere :=
  .bounded fun bound => leads_expressionOver (leads_unaryWithin bound)

end LeoFront.Grammar

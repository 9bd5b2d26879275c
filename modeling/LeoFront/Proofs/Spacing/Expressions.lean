import LeoFront.Proofs.RoundTrip.Writing
import LeoFront.Proofs.Spacing.Lockstep

namespace LeoFront.Grammar
open LeoFront.Parser
variable {α : Type} {C : Comparison} {m n depth : Nat}

abbrev Comparison.Agree {α : Type} (C : Comparison) (move : (Position → Position) → α → α)
    (value value' : α) : Prop :=
  move C.left value = move C.right value'

abbrev Steps {α : Type} (C : Comparison) (m n depth : Nat) (p q : Parser α)
    (agree : α → α → Prop) : Prop :=
  Lockstep C m n (C.Solid depth) p q agree (C.Loose depth)

theorem Comparison.Past.loose {condition : Char → Prop} (s t : List Char)
    (past : C.Past depth condition s t) : C.Loose depth s t :=
  past.mono fun _ _ => trivial

theorem steps_literal {text : String} (token : IsToken text) :
    Steps C m n depth (literal text) (literal text) fun _ _ => True :=
  (lockstep_token token).imp (fun _ _ => id) Comparison.Past.loose

theorem steps_oneText {choices : List (String × α)}
    (tokens : ∀ choice ∈ choices, IsToken choice.1) :
    Steps C m n depth (oneText choices) (oneText choices) (· = ·) :=
  lockstep_oneText fun choice member => ⟨tokens choice member, fun _ _ => trivial⟩

def InWord (text : String) : Prop :=
  IsToken text ∧ ∀ x ∈ text.toList.getLast?, wordPart.contains x = true

instance (text : String) : Decidable (InWord text) := inferInstanceAs (Decidable (_ ∧ _))

theorem steps_oneWord {choices : List (String × α)}
    (words : ∀ choice ∈ choices, InWord choice.1) :
    Steps C m n depth (oneWord choices) (oneWord choices) (· = ·) := by
  refine .bind (lockstep_oneText words) fun value value' same => ?_
  exact .bind lockstep_wordEnd fun _ _ _ => .pure same Comparison.Past.loose

theorem steps_word {text : String} (inWord : InWord text) :
    Steps C m n depth (word text) (word text) fun _ _ => True := by
  obtain ⟨token, part⟩ := inWord
  refine .bind ((lockstep_token token).imp (fun _ _ => id) ?_) fun _ _ _ =>
    lockstep_wordEnd.imp (fun _ _ => id) Comparison.Past.loose
  exact fun s t past => past.mono part

theorem Comparison.Solid.leadingWord {s t : List Char} (solid : C.Solid depth s t) :
    leadingWord s = leadingWord t := by
  have head := solid.head
  cases s with
  | nil =>
    rw [List.head?_eq_none_iff.mp head.symm]
  | cons c s =>
    obtain ⟨t, rfl⟩ := List.head?_eq_some_iff.mp head.symm
    rw [Grammar.leadingWord, Grammar.leadingWord]
    split
    · rename_i start
      have part := wordPart_of_wordStart start
      have plain := plain_of_wordPart part
      obtain ⟨_, same, behind⟩ := solid.tail plain.unquoted
      cases same
      rw [((behind.near plain).run (fun _ => id) part).1]
    · rfl

theorem steps_identifier :
    Steps C m n depth identifier identifier (C.Agree Identifier.move) := by
  refine .spanned (.bind (lockstep_guardRest ?_) fun _ _ _ => ?_)
  · intro s t solid
    rw [solid.leadingWord]
  have plain (c : Char) (start : wordStart.contains c = true) : Plain c :=
    plain_of_wordPart (wordPart_of_wordStart start)
  refine .bind ((lockstep_oneOf plain).imp (fun _ _ => id) fun s t past =>
    past.mono fun x => wordPart_of_wordStart) fun first first' same => ?_
  refine .bind (lockstep_manyOf fun _ => id) fun rest rest' same' => .pure ?_
    Comparison.Past.loose
  intro span span' spans
  rw [Identifier.move, Identifier.move, same, same', spans]

theorem wordPart_of_integerSign {c : Char} (sign : integerSign.contains c = true) :
    wordPart.contains c = true := by
  have signs : c = 'i' ∨ c = 'u' := by
    simp [integerSign, CharClass.contains] at sign
    grind
  rcases signs with rfl | rfl <;> decide

theorem wordy_oneText {choices : List (String × α)}
    (words : ∀ choice ∈ choices, ∃ y ∈ choice.1.toList.head?, wordPart.contains y = true) :
    Wordy (oneText choices) := by
  intro cursor value after read
  obtain ⟨choice, member, -, written⟩ := oneText_rest read
  obtain ⟨y, head, part⟩ := words choice member
  refine ⟨y, ?_, part⟩
  rw [written, List.head?_append, head]
  rfl

theorem wordy_integerWord : Wordy integerWord :=
  .bind (.bind (wordy_oneOf fun _ => wordPart_of_integerSign))

theorem steps_integerWord : Steps C m n depth integerWord integerWord (· = ·) := by
  have words : ∀ choice ∈ integerWidths, InWord choice.1 ∧
      ∃ y ∈ choice.1.toList.head?, wordPart.contains y = true := by decide
  have width : Lockstep C m n (C.Past depth (wordPart.contains ·)) (oneText integerWidths)
      (oneText integerWidths) (· = ·) (C.Past depth (wordPart.contains ·)) := by
    have wordy := wordy_oneText fun choice member => (words choice member).2
    exact .inWord wordy wordy (lockstep_oneText fun choice member => (words choice member).1)
  have integer : Lockstep C m n (C.Solid depth) integerType integerType (· = ·)
      (C.Past depth (wordPart.contains ·)) := by
    refine .bind ((lockstep_oneOf fun c sign => plain_of_wordPart (wordPart_of_integerSign sign)).imp
      (fun _ _ => id) fun s t past => past.mono fun x => wordPart_of_integerSign) ?_
    rintro sign _ rfl
    refine .bind width ?_
    rintro width _ rfl
    exact .pure rfl fun _ _ => id
  refine .bind integer ?_
  rintro type _ rfl
  exact .bind lockstep_wordEnd fun _ _ _ => .pure rfl Comparison.Past.loose

theorem steps_type : Steps C m n depth type type (C.Agree Ty.move) := by
  refine .or (.bind (steps_oneWord (by decide)) fun _ _ same => .pure ?_ fun _ _ => id)
    (.or (.bind steps_integerWord fun _ _ same => .pure ?_ fun _ _ => id)
      (.or (.bind steps_identifier fun _ _ same => .pure ?_ fun _ _ => id) .fail))
  · exact congrArg Ty.primitive same
  · exact congrArg Ty.primitive same
  · exact congrArg Ty.named same

abbrev Comparison.AgreeMade (C : Comparison) (make make' : Span → Expression) : Prop :=
  ∀ span span' : Span, span.move C.left = span'.move C.right →
    C.Agree Expression.move (make span) (make' span')

theorem agreeMade_literal {value : String} {type : Primitive} :
    C.AgreeMade (.literal value type) (.literal value type) :=
  fun _ _ spans => congrArg (Expression.literal value type) spans

theorem steps_booleanLiteral :
    Steps C m n depth booleanLiteral booleanLiteral C.AgreeMade := by
  refine .bind (steps_oneWord (by decide)) ?_
  rintro value _ rfl
  exact .pure agreeMade_literal fun _ _ => id

theorem lockstep_someOf {set : CharClass}
    (within : ∀ c, set.contains c = true → wordPart.contains c = true) :
    Lockstep C m n (C.Solid depth) (someOf set) (someOf set) (· = ·)
      (C.Past depth (wordPart.contains ·)) := by
  refine .bind ((lockstep_oneOf fun c member => plain_of_wordPart (within c member)).imp
    (fun _ _ => id) fun s t past => past.mono within) ?_
  rintro first _ rfl
  refine .bind (lockstep_manyOf within) ?_
  rintro rest _ rfl
  exact .pure rfl fun _ _ => id

theorem steps_addressLiteral :
    Steps C m n depth addressLiteral addressLiteral C.AgreeMade := by
  have inWord : InWord "aleo1" := by decide
  refine .bind ((lockstep_token inWord.1).imp (fun _ _ => id) fun s t past =>
    past.mono inWord.2) fun _ _ _ => ?_
  have wordy : Wordy (someOf addressPart) := .bind (wordy_oneOf fun _ => addressPart_part)
  refine .bind (.inWord wordy wordy (lockstep_someOf fun _ => addressPart_part)) ?_
  rintro rest _ rfl
  exact .pure agreeMade_literal Comparison.Past.loose

theorem steps_numberLiteral :
    Steps C m n depth numberLiteral numberLiteral C.AgreeMade := by
  have words : ∀ choice ∈ fieldSuffixes, InWord choice.1 ∧
      ∃ y ∈ choice.1.toList.head?, wordPart.contains y = true := by decide
  have wordy : Wordy numberSuffix := by
    refine .or wordy_integerWord (.or (.bind (wordy_oneText fun choice member =>
      (words choice member).2)) ?_)
    intro _ _ _ read
    cases read
  have suffix : Steps C m n depth numberSuffix numberSuffix (· = ·) :=
    .or steps_integerWord (.or (steps_oneWord fun choice member => (words choice member).1) .fail)
  refine .bind (lockstep_someOf fun _ => digit_part) ?_
  rintro digits _ rfl
  refine .bind (.inWord wordy wordy suffix) ?_
  rintro type _ rfl
  exact .pure agreeMade_literal fun _ _ => id

def Comparison.Quoted (C : Comparison) (depth : Nat) (inside : List Char → Prop)
    (s t : List Char) : Prop :=
  (∃ text s' t', inside text ∧ s = text ++ '"' :: s' ∧ t = text ++ '"' :: t' ∧
    C.Near depth '"' s' t') ∨ C.same ∧ s = t

theorem lockstep_quote : Lockstep C m n (C.Solid depth) (literal "\"") (literal "\"")
    (fun _ _ => True) (C.Quoted depth ('"' ∉ ·)) := by
  refine lockstep_literal fun s t solid => ?_
  have elsewhere {c : Char} {text : List Char} (other : c ≠ '"') : ¬ ['"'] <+: c :: text := by
    rintro ⟨rest, same⟩
    cases same
    exact other rfl
  cases solid with
  | mark _ _ unquoted _ _ _ => exact .inr ⟨elsewhere unquoted, elsewhere unquoted⟩
  | last ends _ =>
    have unquoted := (level_none ends).2.2
    exact .inr ⟨elsewhere unquoted, elsewhere unquoted⟩
  | string inside near =>
    exact .inl ⟨_, _, rfl, rfl, .inl ⟨_, _, _, inside, rfl, rfl, near⟩⟩
  | same same =>
    by_cases begins : ['"'] <+: s
    · obtain ⟨rest, rfl⟩ := begins
      exact .inl ⟨rest, rest, rfl, rfl, .inr ⟨same, rfl⟩⟩
    · exact .inr ⟨begins, begins⟩

theorem takeWhile_stringPart {text : List Char} (inside : '"' ∉ text) (rest : List Char) :
    (text ++ '"' :: rest).takeWhile stringPart.contains = text := by
  have members (c : Char) (member : c ∈ text) : stringPart.contains c = true := by
    have other : c ≠ '"' := fun same => inside (same ▸ member)
    simp [stringPart, CharClass.contains]
    grind
  rw [List.takeWhile_append_of_pos members, List.takeWhile_cons_of_neg (by decide), List.append_nil]

theorem lockstep_inString : Lockstep C m n (C.Quoted depth ('"' ∉ ·)) (manyOf stringPart)
    (manyOf stringPart) (· = ·) (C.Quoted depth (· = [])) := by
  intro here there _ _ on
  rcases on.1 with ⟨text, s, t, inside, reads, reads', near⟩ | ⟨same, equal⟩
  · have closes : C.Quoted depth (· = []) ('"' :: s) ('"' :: t) :=
      .inl ⟨[], s, t, rfl, rfl, rfl, near⟩
    unfold manyOf
    simp only
    have run : here.rest.takeWhile stringPart.contains = text := by
      rw [reads, takeWhile_stringPart inside]
    have run' : there.rest.takeWhile stringPart.contains = text := by
      rw [reads', takeWhile_stringPart inside]
    rw [run, run']
    exact .some ⟨rfl, on.skip reads reads' closes⟩
  · have reads := (List.takeWhile_append_dropWhile
      (p := stringPart.contains) (l := here.rest)).symm
    have closes : C.Quoted depth (· = []) (here.rest.dropWhile stringPart.contains)
        (here.rest.dropWhile stringPart.contains) := .inr ⟨same, rfl⟩
    have onward := on.skip reads (equal ▸ reads) closes
    refine .some ⟨by rw [equal], ?_⟩
    rw [← equal]
    exact onward

theorem lockstep_unquote : Lockstep C m n (C.Quoted depth (· = [])) (literal "\"") (literal "\"")
    (fun _ _ => True) (C.Loose depth) := by
  refine lockstep_literal fun s t quoted => ?_
  obtain ⟨_, s, t, rfl, rfl, rfl, near⟩ | ⟨same, rfl⟩ := quoted
  · exact .inl ⟨s, t, rfl, rfl, '"', trivial, near⟩
  · by_cases begins : ['"'] <+: s
    · obtain ⟨rest, rfl⟩ := begins
      exact .inl ⟨rest, rest, rfl, rfl, '"', trivial, .close (.same same)⟩
    · exact .inr ⟨begins, begins⟩

theorem steps_stringLiteral :
    Steps C m n depth stringLiteral stringLiteral C.AgreeMade := by
  refine .bind lockstep_quote fun _ _ _ => .bind lockstep_inString ?_
  rintro value _ rfl
  exact .bind lockstep_unquote fun _ _ _ => .pure agreeMade_literal fun _ _ => id

theorem steps_variableName :
    Steps C m n depth variableName variableName (C.Agree Expression.move) := by
  refine .bind steps_identifier fun name name' same => .pure ?_ fun _ _ => id
  exact congrArg (fun name : Identifier => Expression.var name.name name.span) same

section
variable {p q : Parser α} [Advances p] [Advances q] {move : (Position → Position) → α → α}

theorem lockstep_separated (item : Steps C m n depth p q (C.Agree move)) :
    Steps C m n depth (separated p) (separated q) (C.Agree fun shift => List.map (move shift)) := by
  have more : Lockstep C m n (C.Loose depth) (do
      blanks
      literal ","
      blanks
      p) (do
      blanks
      literal ","
      blanks
      q) (C.Agree move) (C.Loose depth) :=
    .bind lockstep_blanks fun _ _ _ => .bind (steps_literal (by decide)) fun _ _ _ =>
      .bind lockstep_blanks fun _ _ _ => item
  have consumes (r : Parser α) [Advances r] : Consumes (do
      blanks
      literal ","
      blanks
      r) := .guarded fun _ => (consumes_literal (by decide)).bind
  refine .bind item fun first first' same => ?_
  refine .bind (more.many (consumes p) (consumes q)) fun rest rest' same' => .pure ?_ fun _ _ => id
  simp only [Comparison.Agree, List.map_cons]
  rw [same, same']

theorem lockstep_separatedTrailing (item : Steps C m n depth p q (C.Agree move)) :
    Steps C m n depth (separatedTrailing p) (separatedTrailing q)
      (C.Agree fun shift => List.map (move shift)) := by
  have comma : Lockstep C m n (C.Loose depth) (do
      blanks
      literal ",") (do
      blanks
      literal ",") (fun _ _ => () = ()) (C.Loose depth) :=
    .bind lockstep_blanks fun _ _ _ =>
      (steps_literal (by decide)).imp (fun _ _ _ => rfl) fun _ _ => id
  refine .bind (lockstep_separated item) fun items items' same => ?_
  exact .bind (comma.optional fun _ _ => id) fun _ _ _ => .pure same fun _ _ => id

theorem lockstep_possiblyEmpty {p q : Parser (List α)} [Advances p] [Advances q]
    (items : Steps C m n depth p q (C.Agree fun shift => List.map (move shift))) :
    Steps C m n depth (possiblyEmpty p) (possiblyEmpty q) (C.Agree fun shift => List.map (move shift)) := by
  refine .bind (items.optional fun _ _ => Comparison.Solid.loose) fun items items' same =>
    .pure ?_ fun _ _ => id
  cases items <;> cases items' <;> simp_all [Comparison.Agree]

end

theorem foldl_eq {β γ δ : Type} {values values' : List α} {step : β → α → β} {u v : α → δ}
    (f g : β → γ) {state state' : β} (same : f state = g state')
    (keeps : ∀ state state' value value', f state = g state' → u value = v value' →
      f (step state value) = g (step state' value'))
    (each : values.map u = values'.map v) :
    f (values.foldl step state) = g (values'.foldl step state') := by
  induction values generalizing values' state state' with
  | nil =>
    rw [List.map_eq_nil_iff.mp each.symm]
    exact same
  | cons value values ih =>
    obtain ⟨value', values', rfl, head, tail⟩ := List.map_eq_cons_iff.mp each.symm
    rw [List.foldl_cons, List.foldl_cons]
    exact ih (keeps _ _ _ _ same head.symm) tail.symm

theorem agree_foldl_binary {first first' : Expression} {rest rest' : List (BinaryOp × Expression)}
    (same : C.Agree Expression.move first first')
    (each : rest.map (fun next => (next.1, next.2.move C.left)) =
      rest'.map fun next => (next.1, next.2.move C.right)) :
    C.Agree Expression.move
      (rest.foldl (fun left next => .binary next.1 left next.2 (left.span.through next.2.span)) first)
      (rest'.foldl (fun left next => .binary next.1 left next.2 (left.span.through next.2.span))
        first') := by
  refine foldl_eq (Expression.move C.left) (Expression.move C.right) same ?_ each
  rintro left left' ⟨op, right⟩ ⟨op', right'⟩ same same'
  obtain ⟨rfl, same'⟩ := Prod.mk.inj same'
  -- No cursor gives this span: it goes from the start of the first operand to the end of the last.
  have spans := congrArg Expression.span same
  have spans' := congrArg Expression.span same'
  rw [Expression.span_move, Expression.span_move] at spans spans'
  have start := congrArg Span.start spans
  have stop := congrArg Span.stop spans'
  simp only [Span.move] at start stop
  simp only [Expression.move, Span.move, Span.through, same, same', start, stop]

theorem consumes_operand {op : Parser BinaryOp} {operand : Parser Expression} [Advances operand]
    (consumes : Consumes op) : Consumes (do
      blanks
      let op ← op
      blanks
      let right ← operand
      return (op, right)) := .guarded fun _ => consumes.bind

theorem steps_leftChain {op : Parser BinaryOp} {operand operand' : Parser Expression}
    [Advances op] [Advances operand] [Advances operand'] (consumes : Consumes op)
    (operator : Steps C m n depth op op (· = ·))
    (operands : Steps C m n depth operand operand' (C.Agree Expression.move)) :
    Steps C m n depth (leftChain operand op) (leftChain operand' op)
      (C.Agree Expression.move) := by
  have next : Lockstep C m n (C.Loose depth) (do
      blanks
      let op ← op
      blanks
      let right ← operand
      return (op, right)) (do
      blanks
      let op ← op
      blanks
      let right ← operand'
      return (op, right))
      (C.Agree fun shift (next : BinaryOp × Expression) => (next.1, next.2.move shift))
      (C.Loose depth) := by
    refine .bind lockstep_blanks fun _ _ _ => .bind operator ?_
    rintro op _ rfl
    refine .bind lockstep_blanks fun _ _ _ => .bind operands fun right right' same => ?_
    exact .pure (congrArg (Prod.mk op) same) fun _ _ => id
  refine .bind operands fun first first' same => ?_
  refine .bind (next.many (consumes_operand consumes) (consumes_operand consumes))
    fun rest rest' same' => .pure ?_ fun _ _ => id
  exact agree_foldl_binary same same'

theorem lockstep_symbol {text : String} {x : Char} (single : text.toList = [x]) (plain : Plain x) :
    Lockstep C m n (C.Solid depth) (literal text) (literal text) (fun _ _ => True)
      (C.Past depth (· = x)) :=
  (lockstep_mark single plain.unquoted).imp (fun _ _ => id) fun _ _ behind =>
    ⟨x, rfl, behind.near plain⟩

theorem steps_additiveOperator :
    Steps C m n depth additiveOperator additiveOperator (· = ·) := by
  have ends : clash '+' '=' = true ∧ clash '-' '=' = true ∧ clash '-' '>' = true := by decide
  obtain ⟨plus, minus, arrow⟩ := ends
  refine .or (.bind (lockstep_symbol rfl (by decide)) fun _ _ _ => ?_)
    (.or (.bind (lockstep_symbol rfl (by decide)) fun _ _ _ => ?_) .fail)
  · refine .bind (lockstep_notBefore rfl ?_) fun _ _ _ => .pure rfl Comparison.Past.loose
    rintro _ rfl
    exact plus
  · refine .bind (lockstep_notBefore rfl ?_) fun _ _ _ => .bind (lockstep_notBefore rfl ?_)
      fun _ _ _ => .pure rfl Comparison.Past.loose
    · rintro _ rfl
      exact minus
    · rintro _ rfl
      exact arrow

theorem steps_multiplicativeOperator :
    Steps C m n depth multiplicativeOperator multiplicativeOperator (· = ·) := by
  have choices : ∀ choice ∈ [("*", BinaryOp.mul), ("/", .div)], IsToken choice.1 ∧
      ∀ x ∈ choice.1.toList.getLast?, clash x '=' = true := by decide
  refine .bind (lockstep_oneText choices) fun op op' same => ?_
  exact .bind (lockstep_notBefore rfl fun _ => id) fun _ _ _ => .pure same Comparison.Past.loose

theorem consumes_additiveOperator : Consumes additiveOperator :=
  .or (consumes_literal (by decide)).bind (.or (consumes_literal (by decide)).bind consumes_fail)

theorem consumes_multiplicativeOperator : Consumes multiplicativeOperator :=
  .bind (consumes_oneText (by decide))

theorem steps_expressionOver {unary unary' : Parser Expression} [Advances unary] [Advances unary']
    (operands : Steps C m n depth unary unary' (C.Agree Expression.move)) :
    Steps C m n depth (expressionOver unary) (expressionOver unary')
      (C.Agree Expression.move) := by
  have chain {choices : List (String × BinaryOp)} {operand operand' : Parser Expression}
      [Advances operand] [Advances operand']
      (tokens : ∀ choice ∈ choices, IsToken choice.1 ∧ choice.1 ≠ "")
      (operands : Steps C m n depth operand operand' (C.Agree Expression.move)) :
      Steps C m n depth (leftChain operand (oneText choices)) (leftChain operand' (oneText choices))
        (C.Agree Expression.move) :=
    steps_leftChain (consumes_oneText fun choice member => (tokens choice member).2)
      (steps_oneText fun choice member => (tokens choice member).1) operands
  have multiplicative := steps_leftChain consumes_multiplicativeOperator
    steps_multiplicativeOperator operands
  have additive := steps_leftChain consumes_additiveOperator steps_additiveOperator multiplicative
  unfold expressionOver orOperator andOperator equalityOperator comparisonOperator
  exact chain (by decide) (chain (by decide) (chain (by decide) (chain (by decide) additive)))

theorem lockstep_arguments {inner inner' : Parser Expression} [Advances inner] [Advances inner']
    (items : Steps C m n depth inner inner' (C.Agree Expression.move)) :
    Steps C m n depth (arguments inner) (arguments inner') (C.Agree Expression.moveEach) := by
  have each : Expression.moveEach = fun shift => List.map (Expression.move shift) := by
    funext shift expressions
    exact Expression.moveEach_eq_map shift expressions
  rw [each]
  exact lockstep_possiblyEmpty (lockstep_separated items)

def Suffix.move (shift : Position → Position) : Suffix → Suffix
  | .call arguments => .call (Expression.moveEach shift arguments)
  | .access member => .access (member.move shift)

abbrev moveEnded (shift : Position → Position) (suffix : Suffix × Position) : Suffix × Position :=
  (suffix.1.move shift, shift suffix.2)

theorem agree_foldl_apply {target target' : Expression} {suffixes suffixes' : List (Suffix × Position)}
    (same : C.Agree Expression.move target target')
    (each : suffixes.map (moveEnded C.left) = suffixes'.map (moveEnded C.right)) :
    C.Agree Expression.move (suffixes.foldl Suffix.apply target)
      (suffixes'.foldl Suffix.apply target') := by
  refine foldl_eq (Expression.move C.left) (Expression.move C.right) same ?_ each
  rintro target target' ⟨suffix, stop⟩ ⟨suffix', stop'⟩ same same'
  obtain ⟨same', ends⟩ := Prod.mk.inj same'
  have spans := congrArg Expression.span same
  rw [Expression.span_move, Expression.span_move] at spans
  have start := congrArg Span.start spans
  simp only [Span.move] at start
  cases suffix with
  | call arguments =>
    cases suffix' with
    | access => cases same'
    | call arguments' =>
      simp only [Suffix.apply, Expression.move, Span.move, start, ends, same, Suffix.call.inj same']
  | access member =>
    cases suffix' with
    | call => cases same'
    | access member' =>
      simp only [Suffix.apply, Expression.move, Span.move, start, ends, same,
        Suffix.access.inj same']

theorem consumes_suffix {inner : Parser Expression} [Advances inner] :
    Consumes (suffix inner) := by
  refine .or (.spanned ?_) (.or (.spanned ?_) consumes_fail)
  · exact (consumes_literal (by decide)).bind
  · exact (consumes_literal (by decide)).bind

section
variable {inner inner' : Parser Expression} [Advances inner] [Advances inner']
  (items : Steps C m n depth inner inner' (C.Agree Expression.move))
include items

theorem steps_primary : Steps C (m + 1) (n + 1) depth (primary inner) (primary inner')
    (C.Agree Expression.move) := by
  refine .or (.spanned steps_booleanLiteral) (.or (.spanned steps_addressLiteral)
    (.or (.spanned steps_numberLiteral) (.or (.spanned steps_stringLiteral)
    (.or steps_variableName (.or ?_ .fail)))))
  have opens : Consumes (literal "(") := consumes_literal (by decide)
  refine .deeper opens opens (steps_literal (by decide)) fun _ _ _ => ?_
  refine .bind lockstep_blanks fun _ _ _ => .bind items fun _ _ same => ?_
  exact .bind lockstep_blanks fun _ _ _ => .bind (steps_literal (by decide)) fun _ _ _ =>
    .pure same fun _ _ => id

theorem steps_suffix :
    Steps C (m + 1) (n + 1) depth (suffix inner) (suffix inner') (C.Agree moveEnded) := by
  refine .or (.spanned ?_) (.or (.spanned ?_) .fail)
  · have opens : Consumes (literal "(") := consumes_literal (by decide)
    refine .deeper opens opens (steps_literal (by decide)) fun _ _ _ => ?_
    refine .bind lockstep_blanks fun _ _ _ => .bind (lockstep_arguments items) fun _ _ same => ?_
    refine .bind lockstep_blanks fun _ _ _ => .bind (steps_literal (by decide)) fun _ _ _ => ?_
    refine .pure (fun _ _ spans => ?_) fun _ _ => id
    exact Prod.ext (congrArg Suffix.call same) (congrArg Span.stop spans)
  · refine .bind (steps_literal (by decide)) fun _ _ _ => .bind lockstep_blanks fun _ _ _ => ?_
    refine .bind steps_identifier fun _ _ same => .pure (fun _ _ spans => ?_) fun _ _ => id
    exact Prod.ext (congrArg Suffix.access same) (congrArg Span.stop spans)

theorem steps_suffixed : Steps C (m + 1) (n + 1) depth (suffixed inner) (suffixed inner')
    (C.Agree Expression.move) := by
  have consumes (inner : Parser Expression) [Advances inner] : Consumes (do
      blanks
      suffix inner) := .guarded fun _ => consumes_suffix
  have next : Lockstep C (m + 1) (n + 1) (C.Loose depth) (do
      blanks
      suffix inner) (do
      blanks
      suffix inner') (C.Agree moveEnded) (C.Loose depth) :=
    .bind lockstep_blanks fun _ _ _ => steps_suffix items
  refine .bind (steps_primary items) fun target target' same => ?_
  refine .bind (next.many (consumes inner) (consumes inner')) fun suffixes suffixes' same' =>
    .pure ?_ fun _ _ => id
  exact agree_foldl_apply same same'

end

def unaryOver (unary : Parser Expression) : Parser Expression :=
  firstOf [
    spanned do
      let op ← oneText [("!", UnaryOp.not), ("-", .negate)]
      blanks
      let operand ← unary
      return .unary op operand,
    suffixed (expressionOver unary)]

theorem steps_unaryOver {unary unary' : Parser Expression} [Advances unary] [Advances unary']
    (operands : Steps C m n depth unary unary' (C.Agree Expression.move)) :
    Steps C (m + 1) (n + 1) depth (unaryOver unary) (unaryOver unary') (C.Agree Expression.move) := by
  have tokens : ∀ choice ∈ [("!", UnaryOp.not), ("-", .negate)],
      IsToken choice.1 ∧ choice.1 ≠ "" := by decide
  have consumes : Consumes (oneText [("!", UnaryOp.not), ("-", .negate)]) :=
    consumes_oneText fun choice member => (tokens choice member).2
  refine .or (.spanned ?_) (.or (steps_suffixed (steps_expressionOver operands)) .fail)
  refine .deeper consumes consumes (steps_oneText fun choice member => (tokens choice member).1) ?_
  rintro op _ rfl
  refine .bind lockstep_blanks fun _ _ _ => .bind operands fun _ _ same => .pure (fun _ _ spans => ?_)
    fun _ _ => id
  exact congrArg₂ (Expression.unary op) same spans

theorem steps_unaryWithin (bound bound' : List Char) :
    Steps C bound.length bound'.length depth (unaryWithin bound) (unaryWithin bound')
      (C.Agree Expression.move) := by
  -- On the first bound. The rules nested in a token are below both bounds less one (`deeper`), and
  -- below an empty bound there is no text.
  induction bound generalizing bound' with
  | nil => exact fun _ _ below => absurd below (Nat.not_lt_zero _)
  | cons _ bound ih =>
    cases bound' with
    | nil => exact fun _ _ _ below => absurd below (Nat.not_lt_zero _)
    | cons _ bound' => exact steps_unaryOver (ih bound')

theorem steps_expression :
    Steps C m n depth expression expression (C.Agree Expression.move) :=
  .bounded fun bound bound' => steps_expressionOver (steps_unaryWithin bound bound')

end LeoFront.Grammar

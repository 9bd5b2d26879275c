import LeoFront.Proofs.Spacing.Expressions
import LeoFront.Proofs.Spacing.Frames
import Mathlib.Data.List.TakeWhile

namespace LeoFront.Grammar
open LeoFront.Parser

variable {α β : Type} {C : Comparison} {depth : Nat} {x y : Char} {heads heads' : Char → Prop}

/-! ## Words -/

abbrev Calm (y : Char) : Prop := wordPart.contains y = true ∨ y ∈ ['"', '(', '!', '-']

theorem clash_calm (outside : wordPart.contains x = false) (calm : Calm y) :
    clash x y = false := by
  refine clash_of_second (fun pair member same => ?_) (.inl outside)
  have others : ∀ pair ∈ symbolPairs, ¬ Calm pair.2 := by decide
  exact others pair member (same ▸ calm)

theorem ReadsWord.or {p q : Parser α} (first : ReadsWord p) (second : ReadsWord q) :
    ReadsWord (p.or q) := by
  intro cursor value after read
  rcases or_some read with here | here
  · exact first cursor value after here
  · exact second cursor value after here

theorem readsWord_fail : ReadsWord (fail : Parser α) := by
  intro _ _ _ read
  cases read

theorem ReadsWord.map {p : Parser α} {make : α → β} (word : ReadsWord p) :
    ReadsWord (do return make (← p)) := by
  intro cursor value after read
  obtain ⟨inner, _, here, read⟩ := bind_some.mp read
  cases read
  exact word cursor inner after here

theorem ReadsWord.spanned {p : Parser (Span → α)} (word : ReadsWord p) :
    ReadsWord (Parser.spanned p) := by
  intro cursor value after read
  obtain ⟨make, inner, -⟩ := spanned_some.mp read
  exact word cursor make after inner

theorem manyOf_ends {set : CharClass} {cursor after : Cursor} {run : List Char}
    (read : (manyOf set cursor).result = some (run, after)) :
    (∀ c ∈ run, set.contains c = true) ∧ ∀ y ∈ after.rest.head?, set.contains y = false := by
  have whole := manyOf_rest read
  cases read
  refine ⟨fun c => List.mem_takeWhile_imp, fun y head => ?_⟩
  have left := List.append_cancel_left (List.takeWhile_append_dropWhile.trans whole)
  have ends := List.head?_dropWhile_not set.contains cursor.rest
  rw [left, head] at ends
  simpa using ends

theorem someOf_contains {set : CharClass} {cursor after : Cursor} {run : List Char}
    (read : (someOf set cursor).result = some (run, after)) :
    ∀ c ∈ run, set.contains c = true := by
  obtain ⟨first, _, here, read⟩ := bind_some.mp read
  obtain ⟨rest, _, onward, read⟩ := bind_some.mp read
  cases read
  exact List.forall_mem_cons.mpr ⟨oneOf_contains here, (manyOf_ends onward).1⟩

theorem wordEnd_ends {cursor after : Cursor} {value : Unit}
    (read : (wordEnd cursor).result = some (value, after)) :
    cursor.rest = after.rest ∧ ∀ y ∈ after.rest.head?, wordPart.contains y = false := by
  unfold wordEnd guardRest at read
  split at read
  · rename_i ends
    cases read
    refine ⟨rfl, fun y head => ?_⟩
    simpa [Option.mem_def.mp head] using ends
  · cases read

theorem readsWord_identifier : ReadsWord identifier := by
  refine .spanned fun cursor value after read => ?_
  obtain ⟨_, _, free, read⟩ := bind_some.mp read
  obtain ⟨first, _, here, read⟩ := bind_some.mp read
  obtain ⟨rest, _, onward, read⟩ := bind_some.mp read
  cases read
  obtain ⟨parts, ends⟩ := manyOf_ends onward
  refine ⟨first :: rest, ?_, by simp, ?_, ends⟩
  · rw [guardRest_rest free, oneOf_rest here, manyOf_rest onward, List.cons_append]
  · exact List.forall_mem_cons.mpr ⟨wordPart_of_wordStart (oneOf_contains here), parts⟩

abbrev Words (choices : List (String × α)) : Prop :=
  ∀ choice ∈ choices, choice.1.toList ≠ [] ∧ ∀ c ∈ choice.1.toList, wordPart.contains c = true

theorem readsWord_oneWord {choices : List (String × α)} (words : Words choices) :
    ReadsWord (oneWord choices) := by
  intro cursor value after read
  obtain ⟨choice, member, -, written⟩ := oneWord_rest read
  obtain ⟨_, _, -, read⟩ := bind_some.mp read
  obtain ⟨_, _, ends, read⟩ := bind_some.mp read
  cases read
  exact ⟨_, written, (words choice member).1, (words choice member).2, (wordEnd_ends ends).2⟩

theorem readsWord_word {text : String} (words : Words [(text, ())]) : ReadsWord (word text) := by
  intro cursor value after read
  obtain ⟨_, middle, here, ends⟩ := bind_some.mp read
  obtain ⟨same, ends⟩ := wordEnd_ends ends
  obtain ⟨nonempty, parts⟩ := words _ (List.mem_singleton_self _)
  exact ⟨text.toList, same ▸ literal_rest here, nonempty, parts, ends⟩

theorem readsWord_integerWord : ReadsWord integerWord := by
  intro cursor value after read
  obtain ⟨_, _, here, read⟩ := bind_some.mp read
  obtain ⟨_, _, ends, read⟩ := bind_some.mp read
  cases read
  obtain ⟨sign, _, signed, here⟩ := bind_some.mp here
  obtain ⟨width, _, wide, here⟩ := bind_some.mp here
  cases here
  obtain ⟨choice, member, -, written⟩ := oneText_rest wide
  obtain ⟨same, ends⟩ := wordEnd_ends ends
  have widths : Words integerWidths := by decide
  refine ⟨sign :: choice.1.toList, ?_, by simp, ?_, ends⟩
  · rw [oneOf_rest signed, written, same, List.cons_append]
  · exact List.forall_mem_cons.mpr ⟨wordPart_of_integerSign (oneOf_contains signed),
      (widths choice member).2⟩

theorem readsWord_type : ReadsWord type :=
  .or (.map (readsWord_oneWord (by decide)))
    (.or (.map readsWord_integerWord) (.or (.map readsWord_identifier) readsWord_fail))

theorem readsWord_booleanLiteral : ReadsWord booleanLiteral := .map (readsWord_oneWord (by decide))

theorem readsWord_variableName : ReadsWord variableName := .map readsWord_identifier

theorem readsWord_numberLiteral : ReadsWord numberLiteral := by
  have suffix : ReadsWord numberSuffix :=
    .or readsWord_integerWord (.or (readsWord_oneWord (by decide)) readsWord_fail)
  intro cursor value after read
  obtain ⟨digits, _, here, read⟩ := bind_some.mp read
  obtain ⟨type, _, typed, read⟩ := bind_some.mp read
  cases read
  obtain ⟨text, written, nonempty, parts, ends⟩ := suffix _ _ _ typed
  refine ⟨digits ++ text, ?_, by simp [nonempty], fun c member => ?_, ends⟩
  · rw [someOf_rest here, written, List.append_assoc]
  · rcases List.mem_append.mp member with first | second
    · exact digit_part (someOf_contains here c first)
    · exact parts c second

/-! ## Symbols -/

def ReadsOneOf (p : Parser α) (texts : List String) : Prop :=
  ∀ cursor value after, (p cursor).result = some (value, after) →
    ∃ text ∈ texts, cursor.rest = text.toList ++ after.rest

variable {texts : List String}

theorem readsOneOf_literal {text : String} (member : text ∈ texts) :
    ReadsOneOf (literal text) texts :=
  fun _ _ _ read => ⟨text, member, literal_rest read⟩

theorem readsOneOf_oneText {choices : List (String × α)}
    (members : ∀ choice ∈ choices, choice.1 ∈ texts) : ReadsOneOf (oneText choices) texts := by
  intro cursor value after read
  obtain ⟨choice, member, -, written⟩ := oneText_rest read
  exact ⟨choice.1, members choice member, written⟩

theorem ReadsOneOf.or {p q : Parser α} (first : ReadsOneOf p texts) (second : ReadsOneOf q texts) :
    ReadsOneOf (p.or q) texts := by
  intro cursor value after read
  rcases or_some read with here | here
  · exact first cursor value after here
  · exact second cursor value after here

def Looks (p : Parser α) : Prop :=
  ∀ cursor value after, (p cursor).result = some (value, after) → cursor.rest = after.rest

theorem looks_pure {value : α} : Looks (pure value : Parser α) := by
  intro _ _ _ read
  cases read
  rfl

theorem looks_notBefore {text : String} : Looks (notBefore text) :=
  fun _ _ _ => guardRest_rest

theorem Looks.bind {p : Parser α} {next : α → Parser β} (looks : Looks p)
    (onward : ∀ first, Looks (next first)) : Looks (p >>= next) := by
  intro cursor value after read
  obtain ⟨first, middle, here, later⟩ := bind_some.mp read
  exact (looks cursor first middle here).trans (onward first middle value after later)

theorem ReadsOneOf.bind {p : Parser α} {next : α → Parser β} (reads : ReadsOneOf p texts)
    (looks : ∀ first, Looks (next first)) : ReadsOneOf (p >>= next) texts := by
  intro cursor value after read
  obtain ⟨first, middle, here, later⟩ := bind_some.mp read
  rw [← looks first middle value after later]
  exact reads cursor first middle here

theorem readsOneOf_fail : ReadsOneOf (fail : Parser α) texts := by
  intro _ _ _ read
  cases read

/-! ## Expressions -/

theorem frames_leftChain {operand : Parser Expression} {operator : Parser BinaryOp}
    [Traced operand] [Traced operator]
    (operands : Frames C operand (C.Open depth Broken) (C.Begin depth Calm))
    (operators : Frames C operator (C.Open depth Calm) (C.Begin depth Broken)) :
    Frames C (leftChain operand operator) (C.Open depth Broken) (C.Begin depth Calm) := by
  have more : Frames C (do
      blanks
      let op ← operator
      blanks
      let right ← operand
      return (op, right)) (C.Open depth Broken) (C.Open depth Broken) :=
    .bind frames_gap fun _ =>
      .spaced operators fun _ =>
      .bind operands fun _ => .pure fun _ _ => id
  exact .bind operands fun _ => .bind more.many fun _ => .pure fun _ _ => id

theorem frames_oneOf {p : Parser α} [Advances p] {texts : List String} (reads : ReadsOneOf p texts)
    (tokens : ∀ text ∈ texts, Solitary text.toList ∧ ∀ y ∈ text.toList.head?, heads' y)
    (apart : ∀ text ∈ texts, ∀ x ∈ text.toList.getLast?, ∀ y, heads y → clash x y = false) :
    @Frames _ C p (traced_token p) (C.Open depth heads) (C.Begin depth heads') := by
  refine frames_token fun cursor value after read readable whole t opens => ?_
  obtain ⟨text, member, written⟩ := reads cursor value after readable
  obtain rfl := List.append_cancel_right (whole.symm.trans written)
  obtain ⟨token, begins⟩ := tokens text member
  rw [written]
  exact (opens.begin token (apart text member)).mono begins _ _

theorem frames_symbol {p : Parser α} [Advances p] {texts : List String}
    (reads : ReadsOneOf p texts) (symbols : ∀ text ∈ texts, Solitary text.toList ∧
      (∀ x ∈ text.toList.getLast?, Broken x) ∧ ∀ y ∈ text.toList.head?, heads' y) :
    @Frames _ C p (traced_token p) (C.Open depth Calm) (C.Begin depth heads') :=
  frames_oneOf reads (fun text member => ⟨(symbols text member).1, (symbols text member).2.2⟩)
    fun text member x last _ => clash_calm ((symbols text member).2.1 x last)

theorem frames_sign {text : String} (symbol : Solitary text.toList ∧
      (∀ x ∈ text.toList.getLast?, Broken x) ∧ ∀ y ∈ text.toList.head?, heads' y)
    (calm : ∀ y, heads y → Calm y) :
    Frames C (literal text) (C.Open depth heads) (C.Begin depth heads') :=
  frames_literal symbol.1 (fun x last y head => clash_calm (symbol.2.1 x last) (calm y head))
    symbol.2.2

theorem readsOneOf_additiveOperator : ReadsOneOf additiveOperator ["+", "-"] := by
  refine .or ?_ (.or ?_ readsOneOf_fail)
  · exact .bind (readsOneOf_literal (by decide)) fun _ => .bind looks_notBefore fun _ => looks_pure
  · exact .bind (readsOneOf_literal (by decide)) fun _ => .bind looks_notBefore fun _ =>
      .bind looks_notBefore fun _ => looks_pure

theorem readsOneOf_multiplicativeOperator : ReadsOneOf multiplicativeOperator ["*", "/"] :=
  .bind (readsOneOf_oneText (by decide)) fun _ => .bind looks_notBefore fun _ => looks_pure

theorem frames_additiveOperator :
    Frames C additiveOperator (C.Open depth Calm) (C.Begin depth Broken) :=
  frames_symbol readsOneOf_additiveOperator (by decide)

theorem frames_multiplicativeOperator :
    Frames C multiplicativeOperator (C.Open depth Calm) (C.Begin depth Broken) :=
  frames_symbol readsOneOf_multiplicativeOperator (by decide)

theorem frames_expressionOver {unary : Parser Expression} [Traced unary]
    (unaries : Frames C unary (C.Open depth Broken) (C.Begin depth Calm)) :
    Frames C (expressionOver unary) (C.Open depth Broken) (C.Begin depth Calm) := by
  have operator {choices : List (String × BinaryOp)} (symbols : ∀ text ∈ choices.map (·.1),
      Solitary text.toList ∧ (∀ x ∈ text.toList.getLast?, Broken x) ∧
        ∀ y ∈ text.toList.head?, Broken y) :
      Frames C (oneText choices) (C.Open depth Calm) (C.Begin depth Broken) :=
    frames_symbol (readsOneOf_oneText fun choice => List.mem_map_of_mem) symbols
  have comparison : Frames C comparisonOperator (C.Open depth Calm) (C.Begin depth Broken) :=
    operator (by decide)
  have equality : Frames C equalityOperator (C.Open depth Calm) (C.Begin depth Broken) :=
    operator (by decide)
  have conjunction : Frames C andOperator (C.Open depth Calm) (C.Begin depth Broken) :=
    operator (by decide)
  have disjunction : Frames C orOperator (C.Open depth Calm) (C.Begin depth Broken) :=
    operator (by decide)
  exact frames_leftChain (frames_leftChain (frames_leftChain (frames_leftChain
    (frames_leftChain (frames_leftChain unaries frames_multiplicativeOperator)
    frames_additiveOperator) comparison) equality) conjunction) disjunction

theorem frames_addressLiteral :
    Frames C addressLiteral (C.Open depth Broken) (C.Begin depth (wordPart.contains · = true)) := by
  refine frames_token fun cursor value after text readable whole t opens => ?_
  obtain ⟨_, _, here, readable⟩ := bind_some.mp readable
  obtain ⟨rest, _, onward, readable⟩ := bind_some.mp readable
  cases readable
  have written : cursor.rest = ("aleo1".toList ++ rest) ++ after.rest := by
    rw [literal_rest here, someOf_rest onward, List.append_assoc]
  obtain rfl := List.append_cancel_right (whole.symm.trans written)
  rw [written]
  refine opens.begin_parts (by simp) fun c member => ?_
  have parts : ∀ c ∈ "aleo1".toList, wordPart.contains c = true := by decide
  rcases List.mem_append.mp member with first | second
  · exact parts c first
  · exact addressPart_part (someOf_contains onward c second)

theorem frames_stringLiteral :
    Frames C stringLiteral (C.Open depth heads) (C.Begin depth (· = '"')) := by
  refine frames_token fun cursor value after text readable whole t opens => ?_
  obtain ⟨_, _, quote, readable⟩ := bind_some.mp readable
  obtain ⟨inside, _, run, readable⟩ := bind_some.mp readable
  obtain ⟨_, _, unquote, readable⟩ := bind_some.mp readable
  cases readable
  have written : cursor.rest = ('"' :: (inside ++ ['"'])) ++ after.rest := by
    rw [literal_rest quote, manyOf_rest run, literal_rest unquote]
    simp
  obtain rfl := List.append_cancel_right (whole.symm.trans written)
  rw [written]
  have within : '"' ∉ inside := by
    intro member
    have part := (manyOf_ends run).1 _ member
    revert part
    decide
  have near := opens.near '"' fun y _ => clash_of_first (by decide) (.inl (by decide))
  have solid := Comparison.Solid.string within near
  refine ⟨fun _ => ⟨'"', _, rfl, rfl⟩, fun _ => ?_⟩
  simpa using solid

theorem frames_primary {expression : Parser Expression} [Traced expression]
    (expressions : Frames C expression (C.Open depth Broken) (C.Begin depth Calm)) :
    Frames C (primary expression) (C.Open depth Broken) (C.Begin depth Calm) := by
  refine .or (.spanned ?_) (.or (.spanned ?_) (.or (.spanned ?_) (.or (.spanned ?_)
    (.or ?_ (.or ?_ .fail)))))
  · exact (frames_word readsWord_booleanLiteral).widen fun _ => .inl
  · exact frames_addressLiteral.widen fun _ => .inl
  · exact (frames_word readsWord_numberLiteral).widen fun _ => .inl
  · exact frames_stringLiteral.widen fun _ same => .inr (by simp [same])
  · exact (frames_word readsWord_variableName).widen fun _ => .inl
  · exact .spaced (frames_separator rfl (by decide) (by decide)) fun _ =>
      .spaced expressions fun _ =>
      .bind (frames_separator rfl (by decide) (by decide)) fun _ => .pure fun _ _ => id

/-! ### Lists -/

section
variable {p : Parser α} [Traced p]

theorem frames_separated (comma : heads ',')
    (items : Frames C p (C.Open depth heads) (C.Begin depth heads')) :
    Frames C (separated p) (C.Open depth heads) (C.Begin depth heads') := by
  have more : Frames C (do
      blanks
      literal ","
      blanks
      p) (C.Open depth heads) (C.Open depth heads) :=
    .bind frames_gap fun _ =>
      .spaced (frames_separator rfl (by decide) comma) fun _ => items
  exact .bind items fun _ => .bind more.many fun _ => .pure fun _ _ => id

theorem frames_separatedTrailing (comma : heads ',')
    (items : Frames C p (C.Open depth heads) (C.Begin depth heads')) :
    Frames C (separatedTrailing p) (C.Open depth heads) (C.Begin depth heads') := by
  have trailing : Frames C (do
      blanks
      literal ",") (C.Open depth heads) (C.Open depth heads) :=
    .bind frames_gap fun _ => frames_separator rfl (by decide) comma
  exact .bind (frames_separated comma items) fun _ =>
    .bind (trailing.optional fun _ _ => id) fun _ => .pure fun _ _ => id

theorem frames_possiblyEmpty {p : Parser (List α)} [Traced p]
    (items : Frames C p (C.Open depth heads) (C.Begin depth heads')) :
    Frames C (possiblyEmpty p) (C.Open depth heads) (C.Ready depth fun _ => True) := by
  have ready (known : Char → Prop) (s t : List Char) (ready : C.Ready depth known s t) :
      C.Ready depth (fun _ => True) s t := ready.mono (fun _ _ => trivial) _ _
  have some := items.imp (fun _ _ => id) fun s t begins => ready heads' s t (begins.ready _ _)
  exact .bind (some.optional fun s t opens => ready heads s t (opens.ready _ _)) fun _ =>
    .pure fun _ _ => id

end

/-! ### Suffixes -/

section
variable {expression : Parser Expression} [Traced expression]
  (expressions : Frames C expression (C.Open depth Broken) (C.Begin depth Calm))
include expressions

theorem frames_arguments :
    Frames C (arguments expression) (C.Open depth Broken) (C.Ready depth fun _ => True) :=
  frames_possiblyEmpty (frames_separated (by decide) expressions)

theorem frames_suffix :
    Frames C (suffix expression) (C.Open depth Broken) (C.Begin depth Broken) := by
  refine .or (.spanned ?_) (.or (.spanned ?_) .fail)
  · exact .bind (frames_separator rfl (by decide) (by decide)) fun _ =>
      .bind frames_blanks fun _ =>
      .spaced (frames_arguments expressions) fun _ =>
      .bind (frames_separator rfl (by decide) (by decide)) fun _ => .pure fun _ _ => id
  · exact .spaced (frames_sign (by decide) fun _ => .inl) fun _ =>
      .bind (frames_word readsWord_identifier) fun _ => .pure fun _ _ => id

theorem frames_suffixed :
    Frames C (suffixed expression) (C.Open depth Broken) (C.Begin depth Calm) := by
  have more : Frames C (do
      blanks
      suffix expression) (C.Open depth Broken) (C.Open depth Broken) :=
    .bind frames_gap fun _ => frames_suffix expressions
  exact .bind (frames_primary expressions) fun _ => .bind more.many fun _ => .pure fun _ _ => id

end

theorem frames_unaryWithin (bound : List Char) :
    Frames C (unaryWithin bound) (C.Open depth Broken) (C.Begin depth Calm) := by
  induction bound with
  | nil => exact .fail
  | cons _ bound ih =>
    have reads : ReadsOneOf (oneText [("!", UnaryOp.not), ("-", .negate)]) ["!", "-"] :=
      readsOneOf_oneText (by decide)
    refine .or (.spanned ?_) (.or (frames_suffixed (frames_expressionOver ih)) .fail)
    exact .spaced (frames_symbol reads (by decide)) fun _ =>
      .bind ih fun _ => .pure fun _ _ => id

theorem frames_expression :
    Frames C expression (C.Open depth Broken) (C.Begin depth Calm) :=
  .bounded fun bound => frames_expressionOver (frames_unaryWithin bound)

/-! ## Imports -/

abbrev Entry (y : Char) : Prop := Calm y ∨ y = '*'

theorem frames_importSymbol :
    Frames C importSymbol (C.Open depth (· ≠ '=')) (C.Begin depth (wordPart.contains · = true)) := by
  have other (y : Char) (part : wordPart.contains y = true) : y ≠ '=' := by
    rintro rfl
    revert part
    decide
  have renamed : Frames C (do
      blanks
      word "as"
      blanks
      identifier) (C.Open depth (· ≠ '=')) (C.Open depth (wordPart.contains · = true)) :=
    .bind frames_gap fun _ =>
      .spaced (frames_word (readsWord_word (by decide))) fun _ => frames_word readsWord_identifier
  have optional := (renamed.imp (fun _ _ => id) (Comparison.Open.mono other)).optional fun _ _ => id
  exact .spanned (.bind (frames_word readsWord_identifier) fun _ => .bind optional fun _ =>
    .pure fun _ _ => id)

section
variable {access : Parser Access} [Traced access]
  (accesses : Frames C access (C.Open depth (· ≠ '=')) (C.Begin depth Entry))
include accesses

theorem frames_packageOver :
    Frames C (packageOver access) (C.Open depth (· ≠ '='))
      (C.Begin depth (wordPart.contains · = true)) := by
  have dot : Frames C (literal ".") (C.Open depth Entry) (C.Begin depth Broken) := by
    refine frames_literal (by decide) (fun x last y entry => ?_) (by decide)
    cases last
    rcases entry with calm | rfl
    · exact clash_calm (by decide) calm
    · decide
  exact .spanned (.spaced (frames_word readsWord_identifier) fun _ =>
    .spaced dot fun _ =>
    .bind accesses fun _ => .pure fun _ _ => id)

theorem frames_accessOver :
    Frames C (accessOver access) (C.Open depth (· ≠ '=')) (C.Begin depth Entry) := by
  have entry (y : Char) (part : wordPart.contains y = true) : Entry y := .inl (.inl part)
  have star : Frames C (literal "*") (C.Open depth (· ≠ '=')) (C.Begin depth Entry) := by
    refine frames_literal (by decide) (fun x last y other => ?_) (by decide)
    cases last
    have pairs : ∀ pair ∈ symbolPairs, pair.1 = '*' → pair.2 = '=' := by decide
    exact clash_outside (fun member => other (pairs _ member rfl)) (.inl (by decide))
  have comma : Frames C (literal ",") (C.Open depth (· ≠ '=')) (C.Ready depth (· ≠ '=')) :=
    (frames_separator rfl (by decide) (by decide)).imp (fun _ _ => id) Comparison.Begin.ready
  refine .or (.spanned ?_) (.or (.spanned ?_) (.or ?_ (.or ?_ .fail)))
  · exact .bind star fun _ => .pure fun _ _ => id
  · exact .spaced (frames_separator rfl (by decide) (by decide)) fun _ =>
      .bind (frames_separated (by decide) accesses) fun _ =>
      .bind frames_blanks fun _ =>
      .spaced (comma.optional Comparison.Open.ready) fun _ =>
      .bind (frames_separator rfl (by decide) (by decide)) fun _ => .pure fun _ _ => id
  · exact .bind ((frames_packageOver accesses).widen entry) fun _ => .pure fun _ _ => id
  · exact .bind (frames_importSymbol.widen entry) fun _ => .pure fun _ _ => id

end

theorem frames_access : Frames C access (C.Open depth (· ≠ '=')) (C.Begin depth Entry) := by
  refine .bounded fun bound => ?_
  induction bound with
  | nil => exact .fail
  | cons _ bound ih => exact frames_accessOver ih

theorem frames_importStatement :
    Frames C importStatement C.after (C.Begin 0 (wordPart.contains · = true)) := by
  have semicolon : Frames C (literal ";") C.after (C.Begin 0 (· ≠ '=')) :=
    frames_last rfl rfl (by decide)
  exact .spanned (.spaced (frames_word (readsWord_word (by decide))) fun _ =>
    .spaced (frames_packageOver frames_access) fun _ =>
    .bind semicolon fun _ => .pure fun _ _ => id)

/-! ## Statements -/

theorem frames_colon : Frames C (literal ":") (C.Open depth heads) (C.Begin depth (· = ':')) :=
  frames_separator rfl (by decide) rfl

theorem frames_semicolon :
    Frames C (literal ";") (C.Open (depth + 1) heads) (C.Begin (depth + 1) Broken) :=
  frames_mark (c := ';') rfl (by simp [level]) (by decide) (by decide)

theorem frames_returnStatement :
    Frames C returnStatement (C.Open (depth + 1) heads)
      (C.Begin (depth + 1) (wordPart.contains · = true)) :=
  .spanned (.spaced (frames_word (readsWord_word (by decide))) fun _ =>
    .spaced frames_expression fun _ =>
    .bind frames_semicolon fun _ => .pure fun _ _ => id)

theorem frames_bindingStatement :
    Frames C bindingStatement (C.Open (depth + 1) heads)
      (C.Begin (depth + 1) (wordPart.contains · = true)) := by
  have annotated : Frames C typeAnnotation (C.Begin (depth + 1) Broken)
      (C.Begin (depth + 1) Broken) :=
    .spaced (frames_separator rfl (by decide) (by decide)) fun _ =>
      .spaced (frames_word readsWord_type) fun _ => .pure fun _ _ => id
  exact .spanned (.spaced (frames_word (readsWord_oneWord (by decide))) fun _ =>
    .spaced (frames_word readsWord_identifier) fun _ =>
    .bind (annotated.optional fun _ _ => id) fun _ =>
    .spaced (frames_sign (by decide) fun _ => id) fun _ =>
    .spaced frames_expression fun _ =>
    .bind frames_semicolon fun _ => .pure fun _ _ => id)

theorem frames_consoleStatement :
    Frames C consoleStatement (C.Open (depth + 1) heads)
      (C.Begin (depth + 1) (wordPart.contains · = true)) := by
  have console : Frames C (literal "console") (C.Open (depth + 1) Broken)
      (C.Begin (depth + 1) (wordPart.contains · = true)) :=
    frames_literal (by decide) (fun x last y => clash_word (by cases last; decide)) (by decide)
  have words : ∀ text ∈ consoleFunctions.map (·.1), Solitary text.toList ∧
      (∀ x ∈ text.toList.getLast?, wordPart.contains x = true) ∧
      ∀ y ∈ text.toList.head?, wordPart.contains y = true := by decide
  have function : Frames C (oneText consoleFunctions) (C.Open (depth + 1) Broken)
      (C.Begin (depth + 1) (wordPart.contains · = true)) :=
    frames_oneOf (readsOneOf_oneText fun _ => List.mem_map_of_mem)
      (fun text member => ⟨(words text member).1, (words text member).2.2⟩)
      fun text member x last y => clash_word ((words text member).2.1 x last)
  exact .spanned (.spaced console fun _ =>
    .spaced (frames_sign (by decide) fun _ => .inl) fun _ =>
    .spaced function fun _ =>
    .bind (frames_separator rfl (by decide) (by decide)) fun _ =>
    .bind frames_blanks fun _ =>
    .spaced (frames_arguments frames_expression) fun _ =>
    .spaced (frames_separator rfl (by decide) (by decide)) fun _ =>
    .bind frames_semicolon fun _ => .pure fun _ _ => id)

theorem readsOneOf_assignOperator : ReadsOneOf assignOperator ["+=", "-=", "*=", "/=", "="] := by
  refine .or (readsOneOf_oneText (by decide)) (.or ?_ readsOneOf_fail)
  exact .bind (readsOneOf_literal (by decide)) fun _ => .bind looks_notBefore fun _ => looks_pure

theorem frames_assignOperator :
    Frames C assignOperator (C.Open depth Calm) (C.Begin depth Broken) :=
  frames_symbol readsOneOf_assignOperator (by decide)

theorem frames_assignStatement :
    Frames C assignStatement (C.Open (depth + 1) heads) (C.Begin (depth + 1) Calm) :=
  .spanned (.spaced frames_expression fun _ =>
    .spaced frames_assignOperator fun _ =>
    .spaced frames_expression fun _ =>
    .bind frames_semicolon fun _ => .pure fun _ _ => id)

theorem frames_expressionStatement :
    Frames C expressionStatement (C.Open (depth + 1) heads) (C.Begin (depth + 1) Calm) :=
  .spanned (.spaced frames_expression fun _ =>
    .bind frames_semicolon fun _ => .pure fun _ _ => id)

abbrev Any (_ : Char) : Prop := True

section
variable {block : Parser Block} {conditional : Parser Conditional} [Traced block]
  [Traced conditional]
  (blocks : Frames C block (C.Open (depth + 1) Any) (C.Begin (depth + 1) Broken))
  (conditionals : Frames C conditional (C.Open (depth + 1) Any) (C.Begin (depth + 1) Calm))
include blocks

theorem frames_loopStatement :
    Frames C (loopStatement block) (C.Open (depth + 1) Any)
      (C.Begin (depth + 1) (wordPart.contains · = true)) :=
  .spanned (.spaced (frames_word (readsWord_word (by decide))) fun _ =>
    .spaced (frames_word readsWord_identifier) fun _ =>
    .spaced frames_colon fun _ =>
    .spaced (frames_word readsWord_type) fun _ =>
    .spaced (frames_word (readsWord_word (by decide))) fun _ =>
    .spaced frames_expression fun _ =>
    .spaced (frames_sign (by decide) fun _ => id) fun _ =>
    .spaced frames_expression fun _ =>
    .bind blocks fun _ => .pure fun _ _ => id)

include conditionals

theorem frames_statementOver :
    Frames C (statementOver block conditional) (C.Open (depth + 1) Any)
      (C.Begin (depth + 1) Any) := by
  have any {known : Char → Prop} (y : Char) (_ : known y) : Any y := trivial
  refine .or (frames_returnStatement.widen any) (.or (frames_bindingStatement.widen any) (.or ?_
    (.or ((frames_loopStatement blocks).widen any) (.or (frames_consoleStatement.widen any) (.or ?_
    (.or (frames_assignStatement.widen any)
    (.or (frames_expressionStatement.widen any) .fail)))))))
  · exact .bind (conditionals.widen any) fun _ => .pure fun _ _ => id
  · exact .bind (blocks.widen any) fun _ => .pure fun _ _ => id

theorem frames_otherwiseOver :
    Frames C (otherwiseOver block conditional) (C.Open (depth + 1) Any)
      (C.Open (depth + 1) (wordPart.contains · = true)) := by
  have any {known : Char → Prop} (y : Char) (_ : known y) : Any y := trivial
  have ways : Frames C (firstOf [
      do return Otherwise.chain (← conditional),
      do return Otherwise.block (← block)]) (C.Open (depth + 1) Any) (C.Begin (depth + 1) Any) :=
    .or (.bind (conditionals.widen any) fun _ => .pure fun _ _ => id)
      (.or (.bind (blocks.widen any) fun _ => .pure fun _ _ => id) .fail)
  exact .bind frames_gap fun _ => .spaced (frames_word (readsWord_word (by decide))) fun _ => ways

theorem frames_conditionalOver :
    Frames C (conditionalOver block conditional) (C.Open (depth + 1) Any)
      (C.Begin (depth + 1) Calm) := by
  have word : Frames C (word "if") (C.Open (depth + 1) Calm) (C.Begin (depth + 1) Calm) :=
    (frames_word (readsWord_word (by decide))).widen fun _ => .inl
  have otherwise := (frames_otherwiseOver blocks conditionals).imp (fun _ _ => id)
    (Comparison.Open.mono fun _ _ => trivial)
  exact .spanned (.spaced word fun _ =>
    .spaced frames_expression fun _ =>
    .bind blocks fun _ =>
    .bind (otherwise.optional fun _ _ => id) fun _ => .pure fun _ _ => id)

end

def Comparison.Shut (C : Comparison) : (depth : Nat) → List Char → List Char → Prop
  | 0 => C.after
  | depth + 1 => C.Open (depth + 1) Any

theorem frames_closing (begins : heads '\x7d') :
    Frames C (literal "\x7d") (C.Shut depth) (C.Begin (depth + 1) heads) := by
  cases depth with
  | zero => exact frames_last rfl rfl begins
  | succ depth => exact frames_mark (c := '\x7d') rfl (by simp [level]) (by decide) begins

theorem frames_opening :
    Frames C (literal "\x7b") (C.Open (depth + 1) Any) (C.Begin depth Broken) :=
  frames_mark (c := '\x7b') rfl (by simp [level]) (by decide) (by decide)

theorem frames_blockOver {statement : Parser Statement} [Traced statement]
    (statements : Frames C statement (C.Open (depth + 1) Any) (C.Begin (depth + 1) Any)) :
    Frames C (blockOver statement) (C.Shut depth) (C.Begin depth Broken) := by
  have each : Frames C (do
      let statement ← statement
      blanks
      return statement) (C.Begin (depth + 1) Any) (C.Begin (depth + 1) Any) :=
    .spaced statements fun _ => .pure fun _ _ => id
  exact .spanned (.spaced frames_opening fun _ =>
    .bind each.many fun _ =>
    .bind (frames_closing trivial) fun _ => .pure fun _ _ => id)

theorem frames_nested (bound : List Char) :
    (∀ depth, Frames C (blockWithin bound) (C.Shut depth) (C.Begin depth Broken)) ∧
    ∀ depth, Frames C (conditionalWithin bound) (C.Open (depth + 1) Any)
      (C.Begin (depth + 1) Calm) := by
  induction bound with
  | nil => exact ⟨fun _ => .fail, fun _ => .fail⟩
  | cons _ bound ih =>
    obtain ⟨blocks, conditionals⟩ := ih
    refine ⟨fun depth => ?_, fun depth => ?_⟩
    · exact frames_blockOver (frames_statementOver (blocks (depth + 1)) (conditionals depth))
    · exact frames_conditionalOver (blocks (depth + 1)) (conditionals depth)

theorem frames_block : Frames C block (C.Shut depth) (C.Begin depth Broken) :=
  .bounded fun bound => (frames_nested bound).1 depth

/-! ## Declarations -/

theorem frames_member :
    Frames C member (C.Open depth heads) (C.Begin depth (wordPart.contains · = true)) :=
  .spaced (frames_word readsWord_identifier) fun _ =>
    .spaced frames_colon fun _ =>
    .bind (frames_word readsWord_type) fun _ => .pure fun _ _ => id

theorem frames_circuit :
    Frames C circuit C.after (C.Begin 0 (wordPart.contains · = true)) := by
  have members : Frames C (possiblyEmpty (separatedTrailing member)) (C.Open 1 Any)
      (C.Ready 1 Any) :=
    frames_possiblyEmpty (frames_separatedTrailing trivial frames_member)
  have closing : Frames C (literal "\x7d") (C.Shut 0) (C.Begin 1 Any) := frames_closing trivial
  exact .spanned (.spaced (frames_word (readsWord_oneWord (by decide))) fun _ =>
    .spaced (frames_word readsWord_identifier) fun _ =>
    .bind frames_opening fun _ =>
    .bind frames_blanks fun _ =>
    .spaced members fun _ =>
    .bind closing fun _ => .pure fun _ _ => id)

theorem frames_input :
    Frames C input (C.Open depth heads) (C.Begin depth (wordPart.contains · = true)) := by
  have moded : Frames C (do
      let mode ← mode
      blanks
      return mode) (C.Begin depth (wordPart.contains · = true))
      (C.Begin depth (wordPart.contains · = true)) :=
    .spaced (frames_word (readsWord_oneWord (by decide))) fun _ => .pure fun _ _ => id
  exact .spanned (.bind (moded.optional fun _ _ => id) fun _ =>
    .spaced (frames_word readsWord_identifier) fun _ =>
    .spaced frames_colon fun _ =>
    .bind (frames_word readsWord_type) fun _ => .pure fun _ _ => id)

theorem frames_output : Frames C output (C.Begin depth Broken) (C.Begin depth Broken) :=
  .spaced (frames_sign (by decide) fun _ => .inl) fun _ =>
    .spaced (frames_word readsWord_type) fun _ => .pure fun _ _ => id

theorem frames_function :
    Frames C function C.after (C.Begin 0 (wordPart.contains · = true)) := by
  have inputs : Frames C (possiblyEmpty (separatedTrailing input)) (C.Open 0 Any)
      (C.Ready 0 Any) :=
    frames_possiblyEmpty (frames_separatedTrailing trivial frames_input)
  have body : Frames C block (C.Shut 0) (C.Begin 0 Broken) := frames_block
  have opening : Frames C (literal "(") (C.Open 0 Any) (C.Begin 0 Broken) :=
    frames_separator rfl (by decide) (by decide)
  exact .spanned (.spaced (frames_word (readsWord_word (by decide))) fun _ =>
    .spaced (frames_word readsWord_identifier) fun _ =>
    .bind opening fun _ =>
    .bind frames_blanks fun _ =>
    .spaced inputs fun _ =>
    .spaced (frames_separator rfl (by decide) trivial) fun _ =>
    .bind (frames_output.optional fun _ _ => id) fun _ =>
    .bind body fun _ => .pure fun _ _ => id)

theorem frames_item : Frames C item C.after (C.Begin 0 (wordPart.contains · = true)) := by
  refine .or ?_ (.or ?_ (.or ?_ .fail))
  · exact .bind frames_importStatement fun _ => .pure fun _ _ => id
  · exact .bind frames_circuit fun _ => .pure fun _ _ => id
  · exact .bind frames_function fun _ => .pure fun _ _ => id

end LeoFront.Grammar

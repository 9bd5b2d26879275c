import LeoFront.Proofs.RoundTrip.Words

/-!
# Ways of writing an expression

`Written` says which tokens write an expression at a place that requires a level. A printed expression
is written so whatever its redundant parentheses are (`Expression.written_tokens`).

* `Written.spine` and `Written.followers` cut a written expression the way it is read: operands of one
  level joined by operators, and a target with calls and accesses behind it.
-/

namespace LeoFront.Grammar
variable {level : Nat} {expression : Expression} {tokens : List Token}

/-- Tokens that write an expression at a place that requires a level. -/
inductive Written : Nat → Expression → List Token → Prop
  | literal {value : String} {type : Primitive} {span : Span} (fits : type.Fits value) :
      Written 8 (.literal value type span) [type.literal value]
  | var {name : String} {span : Span} (isName : IsName name) (free : ¬ StartsAddress name) :
      Written 8 (.var name span) [name.toList]
  | wrapped {expression : Expression} {tokens : List Token}
      (inner : Written 0 expression tokens) :
      Written 8 expression ("(".toList :: tokens ++ [")".toList])
  | call {callee : Expression} {tokens : List Token} {pieces : List (Expression × List Token)}
      {span : Span} (target : Written 7 callee tokens)
      (arguments : ∀ piece ∈ pieces, Written 0 piece.1 piece.2) :
      Written 7 (.call callee (pieces.map Prod.fst) span)
        (tokens ++ "(".toList :: commas (pieces.map Prod.snd) ++ [")".toList])
  | access {target : Expression} {tokens : List Token} {member : Identifier} {span : Span}
      (written : Written 7 target tokens) (isName : member.WellFormed) :
      Written 7 (.access target member span) (tokens ++ [".".toList, member.name.toList])
  | unary {op : UnaryOp} {operand : Expression} {tokens : List Token} {span : Span}
      (written : Written 6 operand tokens) :
      Written 6 (.unary op operand span) (op.text.toList :: tokens)
  | binary {op : BinaryOp} {left right : Expression} {leftTokens rightTokens : List Token}
      {span : Span} (first : Written op.level left leftTokens)
      (second : Written (op.level + 1) right rightTokens) :
      Written op.level (.binary op left right span)
        (leftTokens ++ op.text.toList :: rightTokens)
  | tighter {level : Nat} {expression : Expression} {tokens : List Token}
      (written : Written (level + 1) expression tokens) : Written level expression tokens

theorem Written.of_le {required own : Nat} (le : required ≤ own)
    (written : Written own expression tokens) : Written required expression tokens := by
  induction le with
  | refl => exact written
  | step _ ih => exact ih (.tighter written)

theorem Written.in_parentheses {own required : Nat} (count : Nat) (below : required ≤ 8)
    (written : Written own expression tokens) :
    Written required expression (parenthesized (count + needed own required) tokens) := by
  have inside (count : Nat) : Written 8 expression (parenthesized (count + 1) tokens) := by
    induction count with
    | zero => exact .wrapped (written.of_le (Nat.zero_le own))
    | succ count ih => exact .wrapped (ih.of_le (Nat.zero_le 8))
  unfold needed
  split
  · exact (inside count).of_le below
  · rename_i enough
    cases count with
    | zero => exact written.of_le (Nat.not_lt.mp enough)
    | succ count => exact (inside count).of_le below

theorem Written.literal_in_parentheses {required count : Nat} (below : required ≤ 8)
    (written : Written 8 expression tokens) :
    Written required expression (parenthesized count tokens) := by
  have enough : needed 8 required = 0 := if_neg (Nat.not_lt.mpr below)
  have whole := written.in_parentheses count below
  rwa [enough] at whole

mutual

theorem written_tokens (extra : AtPlaces) (place : List Nat) {required : Nat} (below : required ≤ 8)
    (expression : Expression) (wellFormed : expression.WellFormed) :
    Written required expression (expression.tokens extra place required) := by
  cases expression with
  | literal value type span =>
    exact (Written.literal wellFormed).literal_in_parentheses below
  | var name span =>
    exact (Written.var wellFormed.1 wellFormed.2).literal_in_parentheses below
  | binary op left right span =>
    have levels : op.level + 1 ≤ 8 := by cases op <;> decide
    have first := written_tokens extra (0 :: place) (Nat.le_of_succ_le levels) left wellFormed.1
    have second := written_tokens extra (1 :: place) levels right wellFormed.2
    exact (Written.binary first second).in_parentheses _ below
  | unary op operand span =>
    have six : 6 ≤ 8 := by decide
    have inner := written_tokens extra (0 :: place) six operand wellFormed
    exact (Written.unary inner).in_parentheses _ below
  | call callee arguments span =>
    have seven : 7 ≤ 8 := by decide
    have target := written_tokens extra (0 :: place) seven callee wellFormed.1
    obtain ⟨pieces, expressions, tokens, written⟩ :=
      written_tokensEach extra place 1 arguments wellFormed.2
    rw [Expression.tokens, ← tokens, ← expressions]
    exact (Written.call target written).in_parentheses _ below
  | access target member span =>
    have seven : 7 ≤ 8 := by decide
    have inner := written_tokens extra (0 :: place) seven target wellFormed.1
    exact (Written.access inner wellFormed.2).in_parentheses _ below

theorem written_tokensEach (extra : AtPlaces) (place : List Nat) (branch : Nat)
    (expressions : List Expression) (wellFormed : Expression.EachWellFormed expressions) :
    ∃ pieces : List (Expression × List Token), pieces.map Prod.fst = expressions ∧
      pieces.map Prod.snd = Expression.tokensEach extra place branch expressions ∧
      ∀ piece ∈ pieces, Written 0 piece.1 piece.2 := by
  cases expressions with
  | nil => exact ⟨[], rfl, rfl, by simp⟩
  | cons first rest =>
    obtain ⟨pieces, same, tokens, written⟩ :=
      written_tokensEach extra place (branch + 1) rest wellFormed.2
    have head := written_tokens extra (branch :: place) (Nat.zero_le 8) first wellFormed.1
    refine ⟨(first, first.tokens extra (branch :: place) 0) :: pieces, by simp [same], ?_, ?_⟩
    · rw [Expression.tokensEach, ← tokens]
      rfl
    · rintro piece (_ | ⟨_, member⟩)
      · exact head
      · exact written piece member

end

theorem written_whole (extra : AtPlaces) (place : List Nat) (expression : Expression)
    (wellFormed : expression.WellFormed) :
    Written 0 expression (expression.tokens extra place 0) :=
  written_tokens extra place (Nat.zero_le 8) expression wellFormed

structure Operand where
  op : BinaryOp
  right : Expression
  tokens : List Token

def Operand.all (operand : Operand) : List Token := operand.op.text.toList :: operand.tokens

def Operand.join (left : Expression) (operand : Operand) : Expression :=
  .binary operand.op left operand.right .none

theorem Written.spine (written : Written level expression tokens) (below : level < 6) :
    ∃ first firstTokens, ∃ operands : List Operand, Written (level + 1) first firstTokens ∧
      (∀ operand ∈ operands, operand.op.level = level ∧
        Written (level + 1) operand.right operand.tokens) ∧
      tokens = firstTokens ++ operands.flatMap Operand.all ∧
      expression.erase = (operands.foldl Operand.join first).erase := by
  -- operators of one level associate to the left, so the last operand comes last
  induction written with
  | literal | var | wrapped | call | access | unary => omega
  | tighter written ih => exact ⟨_, _, [], written, by simp, by simp, rfl⟩
  | @binary op left right _ rightTokens span _ second ih =>
    obtain ⟨first, firstTokens, operands, head, each, rfl, same⟩ := ih below
    refine ⟨first, firstTokens, operands ++ [⟨op, right, rightTokens⟩], head, ?_, ?_, ?_⟩
    · intro operand member
      rcases List.mem_append.mp member with earlier | last
      · exact each operand earlier
      · cases List.mem_singleton.mp last
        exact ⟨rfl, second⟩
    · simp [Operand.all]
    · rw [List.foldl_append, List.foldl_cons, List.foldl_nil, Operand.join, Expression.erase,
        Expression.erase, same]

inductive Follower where
  | call (pieces : List (Expression × List Token))
  | access (member : Identifier)

def Follower.all : Follower → List Token
  | call pieces => "(".toList :: commas (pieces.map Prod.snd) ++ [")".toList]
  | access member => [".".toList, member.name.toList]

def Follower.IsWritten : Follower → Prop
  | call pieces => ∀ piece ∈ pieces, Written 0 piece.1 piece.2
  | access member => member.WellFormed

def Follower.join (target : Expression) : Follower → Expression
  | call pieces => .call target (pieces.map Prod.fst) .none
  | access member => .access target member .none

theorem Written.followers (written : Written level expression tokens) (seven : level = 7) :
    ∃ target targetTokens, ∃ followers : List Follower, Written 8 target targetTokens ∧
      (∀ follower ∈ followers, follower.IsWritten) ∧
      tokens = targetTokens ++ followers.flatMap Follower.all ∧
      expression.erase = (followers.foldl Follower.join target).erase := by
  have extended {followers : List Follower} (last : Follower)
      (each : ∀ follower ∈ followers, follower.IsWritten) (written : last.IsWritten) :
      ∀ follower ∈ followers ++ [last], follower.IsWritten := by
    intro follower member
    rcases List.mem_append.mp member with earlier | final
    · exact each follower earlier
    · cases List.mem_singleton.mp final
      exact written
  induction written with
  | literal | var | wrapped | unary => omega
  | @binary op => cases op <;> simp [BinaryOp.level] at seven
  | tighter written =>
    subst seven
    exact ⟨_, _, [], written, by simp, by simp, rfl⟩
  | @call _ _ pieces _ _ arguments ih =>
    obtain ⟨target, targetTokens, followers, head, each, rfl, same⟩ := ih rfl
    refine ⟨target, targetTokens, followers ++ [.call pieces], head,
      extended (.call pieces) each arguments, ?_, ?_⟩
    · simp [Follower.all]
    · rw [List.foldl_append, List.foldl_cons, List.foldl_nil, Follower.join, Expression.erase,
        Expression.erase, same]
  | @access _ _ member _ _ isName ih =>
    obtain ⟨target, targetTokens, followers, head, each, rfl, same⟩ := ih rfl
    refine ⟨target, targetTokens, followers ++ [.access member], head,
      extended (.access member) each isName, ?_, ?_⟩
    · simp [Follower.all]
    · rw [List.foldl_append, List.foldl_cons, List.foldl_nil, Follower.join, Expression.erase,
        Expression.erase, same]

def statementWords : List String := ["return", "let", "const", "if", "for", "console", "else"]

structure Opening (t : Token) : Prop where
  separate : Separate t
  visible : ∀ rest, blankRun (t ++ rest) = 0
  word : ∀ keyword ∈ statementWords, keyword.toList ≠ t
  brace : t.head? ≠ some '\x7b'

theorem opening_of_head {c : Char} {rest : List Char} (separate : Separate (c :: rest))
    (visible : isBlank c = false ∧ c ≠ '/') (brace : c ≠ '\x7b')
    (other : c = 'a' ∨ digit.contains c = true ∨ wordPart.contains c = false) :
    Opening (c :: rest) := by
  refine ⟨separate, fun _ => blankRun_of_solid_head _ visible.1 visible.2, ?_, by simpa using brace⟩
  have heads : ∀ keyword ∈ statementWords, keyword.toList.headD ' ' ≠ 'a' ∧
      digit.contains (keyword.toList.headD ' ') = false ∧
      wordPart.contains (keyword.toList.headD ' ') = true := by decide
  intro keyword member same
  obtain ⟨letter, number, part⟩ := heads keyword member
  rw [same] at letter number part
  rcases other with other | other | other
  · exact letter other
  · rw [List.headD_cons, other] at number
    cases number
  · rw [List.headD_cons, other] at part
    cases part

theorem digit_part {c : Char} (isDigit : digit.contains c = true) : wordPart.contains c = true := by
  simp [digit, wordPart, CharClass.contains] at isDigit ⊢
  grind

theorem addressPart_part {c : Char} (part : addressPart.contains c = true) :
    wordPart.contains c = true := by
  simp [addressPart, wordPart, CharClass.contains] at part ⊢
  grind

theorem wordPart_not_brace {c : Char} (part : wordPart.contains c = true) : c ≠ '\x7b' := by
  rintro rfl
  exact absurd part (by decide)

theorem IsRun.opening {c : Char} {rest : List Char} (run : IsRun (c :: rest))
    (other : c = 'a' ∨ digit.contains c = true) : Opening (c :: rest) := by
  have part := run.2 c List.mem_cons_self
  refine opening_of_head run.separate (wordPart_visible part) (wordPart_not_brace part) ?_
  exact other.elim .inl fun isDigit => .inr (.inl isDigit)

theorem opening_mark {c : Char} (rest : List Char) (visible : isBlank c = false ∧ c ≠ '/')
    (brace : c ≠ '\x7b') (mark : wordPart.contains c = false) : Opening (c :: rest) :=
  opening_of_head (.inr (by rintro _ ⟨⟩; exact mark)) visible brace (.inr (.inr mark))

theorem IsName.opening {name : String} (isName : IsName name) : Opening name.toList := by
  have run := IsWord.run isName.word
  obtain ⟨first, rest, same⟩ := List.exists_cons_of_ne_nil run.1
  have part := run.2 first (by simp [same])
  have words : ∀ keyword ∈ statementWords, keyword ∈ keywords := by decide
  constructor
  case separate => exact run.separate
  case visible =>
    intro more
    rw [same]
    exact blankRun_of_solid_head _ (wordPart_visible part).1 (wordPart_visible part).2
  case word => exact fun keyword member => isName.ne_keyword (words keyword member)
  case brace =>
    rw [same]
    simpa using wordPart_not_brace part

theorem isRun_number {value : String} (digits : value.toList ≠ [] ∧
    ∀ c ∈ value.toList, digit.contains c = true) {suffix : List Char}
    (parts : ∀ c ∈ suffix, wordPart.contains c = true) : IsRun (value.toList ++ suffix) := by
  refine ⟨by simp [digits.1], fun c member => ?_⟩
  rcases List.mem_append.mp member with inside | behind
  · exact digit_part (digits.2 c inside)
  · exact parts c behind

theorem isRun_address {rest : List Char} (parts : ∀ c ∈ rest, addressPart.contains c = true) :
    IsRun ("aleo1".toList ++ rest) := by
  have letters : IsRun "aleo1".toList := by decide
  refine ⟨by simp, fun c member => ?_⟩
  rcases List.mem_append.mp member with inside | behind
  · exact letters.2 c inside
  · exact addressPart_part (parts c behind)

theorem isRun_typeText (type : Primitive) : IsRun type.text.toList := by
  rcases type with _ | _ | _ | _ | _ | _ | ⟨_ | _, _ | _ | _ | _ | _⟩ <;> decide

theorem opening_literal {value : String} {type : Primitive} (fits : type.Fits value) :
    Opening (type.literal value) := by
  have number (digits : value.toList ≠ [] ∧ ∀ c ∈ value.toList, digit.contains c = true) :
      Opening (value.toList ++ type.text.toList) := by
    have run := isRun_number digits (isRun_typeText type).2
    obtain ⟨first, rest, same⟩ := List.exists_cons_of_ne_nil digits.1
    have isDigit := digits.2 first (by simp [same])
    rw [same] at run ⊢
    exact run.opening (.inr isDigit)
  cases type with
  | boolean =>
    rcases fits with rfl | rfl
    · exact ⟨IsRun.separate (by decide), fun _ => rfl, by decide, by decide⟩
    · exact ⟨IsRun.separate (by decide), fun _ => rfl, by decide, by decide⟩
  | address =>
    obtain ⟨rest, same, _, parts⟩ := fits
    change Opening value.toList
    rw [same]
    exact (isRun_address parts).opening (.inl rfl)
  | string => exact opening_mark _ (by decide) (by decide) (by decide)
  | field => exact number fits
  | group => exact number fits
  | scalar => exact number fits
  | integer type => exact number fits

theorem Written.opening (written : Written level expression tokens) :
    ∃ t rest, tokens = t :: rest ∧ Opening t := by
  induction written with
  | literal fits => exact ⟨_, _, rfl, opening_literal fits⟩
  | var isName => exact ⟨_, _, rfl, isName.opening⟩
  | wrapped => exact ⟨_, _, rfl, opening_mark [] (by decide) (by decide) (by decide)⟩
  | unary =>
    rename_i op _ _ _ _ _
    refine ⟨_, _, rfl, ?_⟩
    cases op <;> exact opening_mark [] (by decide) (by decide) (by decide)
  | call _ _ ih =>
    obtain ⟨t, rest, rfl, opening⟩ := ih
    exact ⟨t, _, rfl, opening⟩
  | access _ _ ih =>
    obtain ⟨t, rest, rfl, opening⟩ := ih
    exact ⟨t, _, rfl, opening⟩
  | binary _ _ ih =>
    obtain ⟨t, rest, rfl, opening⟩ := ih
    exact ⟨t, _, rfl, opening⟩
  | tighter _ ih => exact ih

def Unprefixed (t : Token) : Prop := t.head? ≠ some '!' ∧ t.head? ≠ some '-'

theorem IsRun.unprefixed {t : Token} (run : IsRun t) : Unprefixed t := by
  obtain ⟨first, rest, rfl⟩ := List.exists_cons_of_ne_nil run.1
  have part := run.2 first List.mem_cons_self
  constructor <;> rintro ⟨⟩ <;> exact absurd part (by decide)

theorem unprefixed_literal {value : String} {type : Primitive} (fits : type.Fits value) :
    Unprefixed (type.literal value) := by
  have number (digits : value.toList ≠ [] ∧ ∀ c ∈ value.toList, digit.contains c = true) :
      Unprefixed (value.toList ++ type.text.toList) :=
    (isRun_number digits (isRun_typeText type).2).unprefixed
  cases type with
  | boolean => rcases fits with rfl | rfl <;> exact ⟨by decide, by decide⟩
  | address =>
    obtain ⟨rest, same, _, parts⟩ := fits
    change Unprefixed value.toList
    rw [same]
    exact (isRun_address parts).unprefixed
  | string => constructor <;> rintro ⟨⟩
  | field => exact number fits
  | group => exact number fits
  | scalar => exact number fits
  | integer type => exact number fits

theorem Written.unprefixed (written : Written level expression tokens) (tight : 7 ≤ level) :
    ∃ t rest, tokens = t :: rest ∧ Unprefixed t := by
  induction written with
  | literal fits => exact ⟨_, _, rfl, unprefixed_literal fits⟩
  | var isName => exact ⟨_, _, rfl, (IsWord.run isName.word).unprefixed⟩
  | wrapped => exact ⟨_, _, rfl, by decide, by decide⟩
  | unary => omega
  | call _ _ ih =>
    obtain ⟨t, rest, rfl, unprefixed⟩ := ih tight
    exact ⟨t, _, rfl, unprefixed⟩
  | access _ _ ih =>
    obtain ⟨t, rest, rfl, unprefixed⟩ := ih tight
    exact ⟨t, _, rfl, unprefixed⟩
  | @binary op => cases op <;> simp [BinaryOp.level] at tight
  | tighter _ ih => exact ih (Nat.le_succ_of_le tight)

theorem Written.solid (written : Written level expression tokens) (ts : List Token) :
    Solid (tokens ++ ts) := by
  obtain ⟨t, rest, rfl, opening⟩ := written.opening
  exact opening.visible _

end LeoFront.Grammar

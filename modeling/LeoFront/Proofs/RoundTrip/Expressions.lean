import LeoFront.Proofs.RoundTrip.Literals
import LeoFront.Proofs.RoundTrip.Operators

namespace LeoFront.Grammar
open LeoFront.Parser
variable {level : Nat} {expression : Expression} {tokens ts : List Token}

variable {inner : Parser Expression} {limit : Nat}

theorem Written.level_le (written : Written level expression tokens) : level ≤ 8 := by
  induction written with
  | @binary op => cases op <;> decide
  | tighter _ ih => exact Nat.le_of_succ_le ih
  | _ => decide

theorem accepts_primary (reads : Reads inner 0 limit)
    (written : Written level expression tokens) (eight : level = 8)
    (within : tokens.length ≤ limit + 1) :
    Accepts (primary inner) (spaced (tokens ++ ts)) (·.erase = expression.erase) (gap ts) := by
  cases written with
  | literal fits => exact accepts_literalToken fits inner
  | var isName free => exact accepts_var isName free inner
  | @wrapped _ wrapped written =>
    have noBoolean (rest : List Token) : Rejects booleanLiteral (spaced ("(".toList :: rest)) :=
      fun _ => rfl
    have noAddress (rest : List Token) : Rejects addressLiteral (spaced ("(".toList :: rest)) :=
      fun _ => rfl
    have noNumber (rest : List Token) : Rejects numberLiteral (spaced ("(".toList :: rest)) :=
      fun _ => rfl
    have noString (rest : List Token) : Rejects stringLiteral (spaced ("(".toList :: rest)) :=
      fun _ => rfl
    have noVariable (rest : List Token) : Rejects variableName (spaced ("(".toList :: rest)) :=
      fun _ => rfl
    have short : wrapped.length ≤ limit := by
      simp only [List.length_cons, List.length_append] at within
      omega
    have whole : "(".toList :: wrapped ++ [")".toList] ++ ts =
        "(".toList :: (wrapped ++ ")".toList :: ts) := by simp
    rw [whole]
    refine (noBoolean _).spanned.firstOf_tail ((noAddress _).spanned.firstOf_tail ?_)
    refine (noNumber _).spanned.firstOf_tail ((noString _).spanned.firstOf_tail ?_)
    refine (noVariable _).firstOf_tail (Accepts.firstOf_head ?_)
    refine (accepts_literal "(" _).bind fun _ _ => ?_
    refine (accepts_blanks (written.solid _)).bind fun _ _ => ?_
    refine (reads _ _ _ written short (follows_closer (by decide) 0 ts)).bind fun value same => ?_
    exact accepts_past ")" ts rfl (accepts_pure same)
  | call | access | unary => omega
  | @binary op => cases op <;> simp [BinaryOp.level] at eight
  | tighter written =>
    have le := written.level_le
    omega

theorem readable_arguments {pieces : List (Expression × List Token)} (reads : Reads inner 0 limit)
    (written : ∀ piece ∈ pieces, Written 0 piece.1 piece.2)
    (within : (commas (pieces.map Prod.snd)).length ≤ limit) (ts : List Token) :
    Readable inner (fun expression value => value.erase = expression.erase) (")".toList :: ts)
      pieces := by
  constructor
  case solid => exact fun piece member after => (written piece member).solid after
  case accepts =>
    intro piece member after behind
    have listed : piece.2 ∈ pieces.map Prod.snd := List.mem_map.mpr ⟨piece, member, rfl⟩
    have short : piece.2.length ≤ limit := Nat.le_trans (length_le_commas listed) within
    refine reads _ _ _ (written piece member) short ?_
    rcases behind with rfl | ⟨more, rfl⟩
    · exact follows_closer (by decide) 0 ts
    · exact follows_closer (by decide) 0 more

theorem accepts_arguments {pieces : List (Expression × List Token)} (reads : Reads inner 0 limit)
    (stops : ∀ ts, Rejects inner (spaced (")".toList :: ts)))
    (written : ∀ piece ∈ pieces, Written 0 piece.1 piece.2)
    (within : (commas (pieces.map Prod.snd)).length ≤ limit) (ts : List Token) :
    ∃ rest, Accepts (arguments inner)
        (spaced (commas (pieces.map Prod.snd) ++ ")".toList :: ts))
        (fun values => Expression.eraseEach values =
          Expression.eraseEach (pieces.map Prod.fst)) rest ∧
      Accepts blanks rest (fun _ => True) (spaced (")".toList :: ts)) := by
  have readable := readable_arguments reads written within ts
  have solid : Solid (")".toList :: ts) := rfl
  have noComma : Rejects (literal ",") (spaced (")".toList :: ts)) := fun _ => rfl
  obtain ⟨rest, read, skip⟩ := accepts_possiblyEmpty solid
    (fun nonempty => accepts_separated readable nonempty solid noComma) (stops ts).bind
  refine ⟨rest, read.imp fun values all => ?_, skip⟩
  rw [Expression.eraseEach_eq_map, Expression.eraseEach_eq_map]
  exact map_eq_of_forall₂ all

theorem accepts_suffix {follower : Follower} (reads : Reads inner 0 limit)
    (stops : ∀ ts, Rejects inner (spaced (")".toList :: ts))) (written : follower.IsWritten)
    (within : follower.all.length ≤ limit) (ts : List Token) :
    Accepts (suffix inner) (spaced (follower.all ++ ts))
      (fun value => ∀ target other : Expression, other.erase = target.erase →
        (Suffix.apply other value).erase = (follower.join target).erase) (gap ts) := by
  cases follower with
  | call pieces =>
    have short : (commas (pieces.map Prod.snd)).length ≤ limit := by
      simp only [Follower.all, List.length_cons, List.length_append] at within
      omega
    obtain ⟨rest, read, skip⟩ := accepts_arguments reads stops written short ts
    have whole : (Follower.call pieces).all ++ ts =
        "(".toList :: (commas (pieces.map Prod.snd) ++ ")".toList :: ts) := by
      simp [Follower.all]
    rw [whole]
    refine Accepts.firstOf_head (Accepts.spanned ?_)
    refine (accepts_literal "(" _).bind fun _ _ => ?_
    have solid := solid_commas (fun piece member after => (written piece member).solid after)
      (show Solid (")".toList :: ts) from rfl)
    refine (accepts_blanks solid).bind fun _ _ => ?_
    refine read.bind fun values sameArguments => skip.bind fun _ _ => ?_
    refine (accepts_literal ")" ts).bind fun _ _ => accepts_pure ?_
    intro span target other same
    rw [Suffix.apply, Follower.join, Expression.erase, Expression.erase, same, sameArguments]
  | access member =>
    have noCall : Rejects (literal "(") (spaced (".".toList :: member.name.toList :: ts)) :=
      fun _ => rfl
    refine noCall.bind.spanned.firstOf_tail (Accepts.firstOf_head (Accepts.spanned ?_))
    refine (accepts_literal "." _).bind fun _ _ => ?_
    refine (accepts_blanks (IsName.solid written ts)).bind fun _ _ => ?_
    refine (accepts_identifier written ts).bind fun read sameMember => accepts_pure ?_
    intro span target other same
    rw [Suffix.apply, Follower.join, Expression.erase, Expression.erase, same, sameMember]

theorem rejects_suffix (follows : Follows level ts) (inner : Parser Expression) :
    Rejects (suffix inner) (spaced ts) := by
  obtain ⟨text, rest, rfl, closer | ⟨op, rfl, _⟩⟩ := follows
  · intro position
    simp only [closers, List.mem_cons, List.not_mem_nil, or_false] at closer
    rcases closer with rfl | rfl | rfl | rfl | rfl | rfl | rfl | rfl | rfl | rfl <;>
      cases rest <;> rfl
  · intro position
    cases op <;> cases rest <;> rfl

theorem follower_ne_nil (follower : Follower) : follower.all ≠ [] := by
  cases follower <;> exact List.cons_ne_nil _ _

theorem solid_follower (follower : Follower) (ts : List Token) : Solid (follower.all ++ ts) := by
  cases follower <;> rfl

theorem foldl_suffix_erase {followers : List Follower} {values : List (Suffix × Position)}
    (all : List.Forall₂ (fun follower value => ∀ target other : Expression,
      other.erase = target.erase →
        (Suffix.apply other value).erase = (Follower.join target follower).erase) followers values)
    {target other : Expression} (same : other.erase = target.erase) :
    (values.foldl Suffix.apply other).erase = (followers.foldl Follower.join target).erase := by
  induction all generalizing target other with
  | nil => exact same
  | cons known _ ih => exact ih (known _ _ same)

theorem reads_suffixed (reads : Reads inner 0 limit)
    (stops : ∀ ts, Rejects inner (spaced (")".toList :: ts))) :
    Reads (suffixed inner) 7 (limit + 1) := by
  intro expression tokens ts written within follows
  obtain ⟨target, targetTokens, followers, head, each, rfl, same⟩ := written.followers rfl
  obtain ⟨t, more, split, _⟩ := head.opening
  rw [List.length_append] at within
  have readsNext (next : Follower) (rest : List Follower) (suffix : next :: rest <:+ followers) :
      Accepts (do
        blanks
        Grammar.suffix inner) (gap (next.all ++ (rest.flatMap Follower.all ++ ts)))
        (fun value => ∀ target other : Expression, other.erase = target.erase →
          (Suffix.apply other value).erase = (Follower.join target next).erase)
        (gap (rest.flatMap Follower.all ++ ts)) := by
    have member := suffix.subset List.mem_cons_self
    have short : next.all.length ≤ limit := by
      have le := length_le_flatMap Follower.all member
      rw [split, List.length_cons] at within
      omega
    refine (accepts_blanks (solid_follower next _)).bind fun _ _ => ?_
    exact accepts_suffix reads stops (each next member) short _
  have stop : Rejects (do
      blanks
      Grammar.suffix inner) (gap ts) :=
    (accepts_blanks follows.solid).bind_rejects fun _ _ => rejects_suffix follows inner
  have short : targetTokens.length ≤ limit + 1 := by omega
  rw [List.append_assoc]
  refine (accepts_primary reads head rfl short).bind fun value known => ?_
  refine (accepts_many_gap (fun next _ => follower_ne_nil next) readsNext stop).bind
    fun values all => ?_
  exact accepts_pure ((foldl_suffix_erase all known).trans same.symm)

theorem rejects_parenthesis (bound : List Char) (ts : List Token) :
    Rejects (expressionOver (unaryWithin bound)) (spaced (")".toList :: ts)) := by
  cases bound <;> exact fun _ => rfl

theorem rejects_unaryOperator {t : Token} (unprefixed : Unprefixed t) (ts : List Token) :
    Rejects (oneText [("!", UnaryOp.not), ("-", .negate)]) (spaced (t :: ts)) := by
  have blankless : ∀ choice ∈ [("!", UnaryOp.not), ("-", .negate)], ' ' ∉ choice.1.toList := by
    decide
  rcases oneText_cases blankless t ts with none | ⟨choice, member, more, rfl, _⟩
  · exact none
  · simp only [List.mem_cons, List.not_mem_nil, or_false] at member
    rcases member with rfl | rfl
    · exact absurd rfl unprefixed.1
    · exact absurd rfl unprefixed.2

theorem accepts_unaryOperator (op : UnaryOp) (ts : List Token) :
    Accepts (oneText [("!", UnaryOp.not), ("-", .negate)]) (spaced (op.text.toList :: ts))
      (· = op) (gap ts) := by
  intro position
  cases op <;> exact ⟨_, _, rfl, rfl⟩

theorem Written.unary_cases (written : Written level expression tokens) (six : level = 6) :
    (∃ op : UnaryOp, ∃ operand rest, tokens = op.text.toList :: rest ∧ Written 6 operand rest ∧
      expression.erase = .unary op operand.erase .none) ∨ Written 7 expression tokens := by
  cases written with
  | unary written => exact .inl ⟨_, _, _, rfl, written, rfl⟩
  | tighter written =>
    subst six
    exact .inr written
  | @binary op => cases op <;> simp [BinaryOp.level] at six
  | _ => omega

theorem reads_unaryWithin (bound : List Char) (limit : Nat) (within : limit ≤ bound.length) :
    Reads (unaryWithin bound) 6 limit := by
  -- what nests has fewer tokens: an operator, a parenthesis or a target stands before it
  induction bound generalizing limit with
  | nil =>
    intro expression tokens ts written short follows
    obtain ⟨t, rest, rfl, _⟩ := written.opening
    simp only [List.length_nil, List.length_cons] at within short
    omega
  | cons _ bound ih =>
    intro expression tokens ts written short follows
    rw [List.length_cons] at within
    have inside : limit - 1 ≤ bound.length := by omega
    rcases written.unary_cases rfl with ⟨op, operand, rest, rfl, written, same⟩ | tight
    · refine Accepts.firstOf_head (Accepts.spanned ?_)
      refine (accepts_unaryOperator op _).bind fun value sameOp => ?_
      refine (accepts_blanks (written.solid ts)).bind fun _ _ => ?_
      have less : rest.length ≤ limit - 1 := by
        rw [List.length_cons] at short
        omega
      refine (ih _ inside _ _ _ written less follows).bind fun value known => ?_
      refine accepts_pure fun span => ?_
      rw [Expression.erase, known, sameOp, same]
    · obtain ⟨t, rest, split, unprefixed⟩ := tight.unprefixed (Nat.le_refl 7)
      have noOperator := rejects_unaryOperator unprefixed (rest ++ ts)
      rw [← List.cons_append, ← split] at noOperator
      refine (Rejects.bind noOperator).spanned.firstOf_tail (Accepts.firstOf_head ?_)
      have inner := reads_chains (ih _ inside) 6 (Nat.le_refl 6)
      rw [← expressionOver_eq] at inner
      have less : tokens.length ≤ limit - 1 + 1 := by
        rw [split, List.length_cons] at short ⊢
        omega
      exact reads_suffixed inner (rejects_parenthesis bound) _ _ _ tight less
        (follows.mono (Nat.le_succ 6))

theorem accepts_expression (written : Written 0 expression tokens) (follows : Follows 0 ts) :
    Accepts Grammar.expression (spaced (tokens ++ ts)) (·.erase = expression.erase) (gap ts) := by
  have nested (bound : List Char) (within : tokens.length ≤ bound.length) :
      Accepts (expressionOver (unaryWithin bound)) (spaced (tokens ++ ts))
        (·.erase = expression.erase) (gap ts) := by
    have reads := reads_chains (reads_unaryWithin bound tokens.length within) 6 (Nat.le_refl 6)
    rw [← expressionOver_eq] at reads
    exact reads _ _ _ written (Nat.le_refl _) follows
  intro position
  have within : tokens.length ≤ (Cursor.bound ⟨spaced (tokens ++ ts), position⟩).length := by
    have whole := length_le_bound (tokens ++ ts) position
    rw [List.length_append] at whole
    omega
  exact nested _ within position

end LeoFront.Grammar

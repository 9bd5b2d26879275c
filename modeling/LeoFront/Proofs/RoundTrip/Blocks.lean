import LeoFront.Proofs.RoundTrip.Statements

namespace LeoFront.Grammar
open LeoFront.Parser
variable {value : Expression} {tokens ts : List Token} {t : Token} {bound : List Char}

structure AfterStatement (ts : List Token) : Prop where
  solid : Solid ts
  noElse : Rejects (word "else") (spaced ts)

theorem Opening.afterStatement (opening : Opening t) (ts : List Token) :
    AfterStatement (t :: ts) := by
  refine ⟨opening.visible _, ?_⟩
  exact rejects_word (by decide) opening.separate (opening.word "else" (by decide))

theorem Written.afterStatement (written : Written 0 value tokens) (ts : List Token) :
    AfterStatement (tokens ++ ts) := by
  obtain ⟨t, rest, rfl, opening⟩ := written.opening
  exact opening.afterStatement (rest ++ ts)

theorem afterStatement_tokens (extra : AtPlaces) (place : List Nat) (statement : Statement)
    (wellFormed : statement.WellFormed) (ts : List Token) :
    AfterStatement (statement.tokens extra place ++ ts) := by
  cases statement with
  | ret | loop | console => exact ⟨rfl, fun _ => rfl⟩
  | binding binding =>
    have begins (kind : BindingKind) (rest : List Token) :
        AfterStatement (kind.text.toList :: rest) := by
      cases kind <;> exact ⟨rfl, fun _ => rfl⟩
    exact begins binding.kind _
  | assign op target value =>
    rw [Statement.tokens, List.append_assoc, List.append_assoc]
    exact (written_whole extra _ target wellFormed.1).afterStatement _
  | expression value =>
    rw [Statement.tokens, List.append_assoc]
    exact (written_whole extra _ value wellFormed).afterStatement _
  | conditional conditional =>
    cases conditional
    exact ⟨rfl, fun _ => rfl⟩
  | block block =>
    cases block
    exact ⟨rfl, fun _ => rfl⟩

structure ReadsStatement (bound : List Char) (piece : Statement × List Token) : Prop where
  begins : ∀ ts, AfterStatement (piece.2 ++ ts)
  accepts : ∀ ts, AfterStatement ts →
    Accepts (statementOver (blockWithin bound) (conditionalWithin bound))
      (spaced (piece.2 ++ ts)) (·.erase = piece.1.erase) (gap ts)

theorem accepts_braces {pieces : List (Statement × List Token)}
    (reads : ∀ piece ∈ pieces, ReadsStatement bound piece) (c : Char) (ts : List Token) :
    Accepts (blockWithin (c :: bound))
      (spaced ("\x7b".toList :: (pieces.flatMap Prod.snd ++ "\x7d".toList :: ts)))
      (·.erase = .mk (Statement.eraseEach (pieces.map Prod.fst)) .none) (gap ts) := by
  -- behind each statement stands the next one or the closing brace, and neither is an `else`
  have following {rest : List (Statement × List Token)} (suffix : rest <:+ pieces) :
      AfterStatement (rest.flatMap Prod.snd ++ "\x7d".toList :: ts) := by
    cases rest with
    | nil => exact ⟨rfl, fun _ => rfl⟩
    | cons piece rest =>
      rw [List.flatMap_cons, List.append_assoc]
      exact (reads piece (suffix.subset List.mem_cons_self)).begins _
  have each : ∀ piece rest, piece :: rest <:+ pieces →
      Accepts (do
        let statement ← statementOver (blockWithin bound) (conditionalWithin bound)
        blanks
        return statement)
        (spaced (piece.2 ++ (rest.flatMap Prod.snd ++ "\x7d".toList :: ts)))
        (·.erase = piece.1.erase) (spaced (rest.flatMap Prod.snd ++ "\x7d".toList :: ts)) := by
    intro piece rest suffix
    have next := following ((List.suffix_cons piece rest).trans suffix)
    have readsPiece := reads piece (suffix.subset List.mem_cons_self)
    refine (readsPiece.accepts _ next).bind fun value same => ?_
    exact (accepts_blanks next.solid).bind fun _ _ => accepts_pure same
  have stop : Rejects (do
      let statement ← statementOver (blockWithin bound) (conditionalWithin bound)
      blanks
      return statement) (spaced ("\x7d".toList :: ts)) := by
    refine Rejects.bind fun position => ?_
    cases bound <;> rfl
  refine Accepts.spanned ((accepts_literal "\x7b" _).bind fun _ _ => ?_)
  refine (accepts_blanks (following List.suffix_rfl).solid).bind fun _ _ => ?_
  refine (accepts_many_spaced (fun piece member ts => ((reads piece member).begins ts).solid) each
    stop).bind fun values all => ?_
  refine (accepts_literal "\x7d" ts).bind fun _ _ => accepts_pure fun span => ?_
  have same := map_eq_of_forall₂ (List.forall₂_map_left_iff.mpr all)
  rw [Block.erase, Statement.eraseEach_eq_map, Statement.eraseEach_eq_map, same]

theorem block_tokens (extra : AtPlaces) (place : List Nat) (body : Block) :
    ∃ inside, body.tokens extra place = "\x7b".toList :: inside := by
  cases body
  exact ⟨_, rfl⟩

theorem conditional_tokens (extra : AtPlaces) (place : List Nat) (conditional : Conditional) :
    ∃ inside, conditional.tokens extra place = "if".toList :: inside := by
  cases conditional
  exact ⟨_, rfl⟩

mutual

theorem accepts_statement (extra : AtPlaces) (place : List Nat) (statement : Statement)
    (wellFormed : statement.WellFormed) (bound : List Char)
    (within : (statement.tokens extra place).length ≤ bound.length) (ts : List Token)
    (after : AfterStatement ts) :
    Accepts (statementOver (blockWithin bound) (conditionalWithin bound))
      (spaced (statement.tokens extra place ++ ts)) (·.erase = statement.erase) (gap ts) := by
  cases statement with
  | ret value span =>
    have written := written_whole extra (0 :: place) value wellFormed
    rw [Statement.tokens, List.cons_append, List.cons_append, List.append_assoc]
    exact (accepts_return written ts).firstOf_head
  | binding binding =>
    have written := written_whole extra (0 :: place) binding.value wellFormed.value
    simp only [Statement.tokens, List.cons_append, List.append_assoc, List.nil_append]
    exact chooses_binding binding.kind (accepts_binding wellFormed written ts)
  | assign op target value span =>
    have left := written_whole extra (0 :: place) target wellFormed.1
    have right := written_whole extra (1 :: place) value wellFormed.2
    have accepts := accepts_assign op left right ts
    obtain ⟨t, rest, same, opening⟩ := left.opening
    simp only [Statement.tokens, List.cons_append, List.append_assoc, List.nil_append]
    rw [same] at accepts ⊢
    exact opening.chooses_statement accepts.firstOf_head
  | conditional conditional =>
    have accepts :=
      accepts_conditional extra (0 :: place) conditional wellFormed bound within ts after
    obtain ⟨inside, same⟩ := conditional_tokens extra (0 :: place) conditional
    rw [Statement.tokens]
    rw [same] at accepts ⊢
    exact chooses_conditional accepts
  | loop head body span =>
    have start := written_whole extra (0 :: place) head.start wellFormed.1.start
    have stop := written_whole extra (1 :: place) head.stop wellFormed.1.stop
    have short : (body.tokens extra (2 :: place)).length ≤ bound.length := by
      simp only [Statement.tokens, List.length_append] at within
      omega
    have accepts := accepts_block extra (2 :: place) body wellFormed.2 bound short ts
    obtain ⟨inside, same⟩ := block_tokens extra (2 :: place) body
    rw [same] at accepts
    simp only [Statement.tokens, same, List.cons_append, List.append_assoc]
    exact chooses_loop (accepts_loop wellFormed.1 start stop accepts)
  | console function arguments span =>
    obtain ⟨pieces, expressions, tokens, written⟩ :=
      written_tokensEach extra place 0 arguments wellFormed
    have accepts := accepts_console function written ts
    rw [expressions, tokens] at accepts
    simp only [Statement.tokens, List.cons_append, List.append_assoc, List.nil_append]
    exact chooses_console accepts
  | expression value span =>
    have written := written_whole extra (0 :: place) value wellFormed
    have noAssign := rejects_assign written ts
    have accepts := accepts_expressionStatement written ts
    obtain ⟨t, rest, same, opening⟩ := written.opening
    rw [Statement.tokens, List.append_assoc, List.singleton_append]
    rw [same] at noAssign accepts ⊢
    exact opening.chooses_statement (noAssign.firstOf_tail accepts.firstOf_head)
  | block block =>
    have accepts := accepts_block extra (0 :: place) block wellFormed bound within ts
    obtain ⟨inside, same⟩ := block_tokens extra (0 :: place) block
    rw [Statement.tokens]
    rw [same] at accepts ⊢
    exact chooses_block accepts

theorem accepts_statements (extra : AtPlaces) (place : List Nat) (branch : Nat)
    (statements : List Statement) (wellFormed : Statement.EachWellFormed statements)
    (bound : List Char)
    (within : (Statement.tokensEach extra place branch statements).length ≤ bound.length) :
    ∃ pieces : List (Statement × List Token), pieces.map Prod.fst = statements ∧
      pieces.flatMap Prod.snd = Statement.tokensEach extra place branch statements ∧
      ∀ piece ∈ pieces, ReadsStatement bound piece := by
  cases statements with
  | nil => exact ⟨[], rfl, rfl, by simp⟩
  | cons first rest =>
    rw [Statement.tokensEach, List.length_append] at within
    obtain ⟨pieces, same, tokens, reads⟩ :=
      accepts_statements extra place (branch + 1) rest wellFormed.2 bound (by omega)
    have begins := afterStatement_tokens extra (branch :: place) first wellFormed.1
    have accepts := accepts_statement extra (branch :: place) first wellFormed.1 bound (by omega)
    refine ⟨(first, first.tokens extra (branch :: place)) :: pieces, by simp [same], ?_, ?_⟩
    · rw [List.flatMap_cons, tokens, Statement.tokensEach]
    · rintro piece (_ | ⟨_, member⟩)
      · exact ⟨begins, accepts⟩
      · exact reads piece member

theorem accepts_block (extra : AtPlaces) (place : List Nat) (block : Block)
    (wellFormed : block.WellFormed) (bound : List Char)
    (within : (block.tokens extra place).length ≤ bound.length) (ts : List Token) :
    Accepts (blockWithin bound) (spaced (block.tokens extra place ++ ts)) (·.erase = block.erase)
      (gap ts) := by
  cases block with
  | mk statements span =>
    simp only [Block.tokens, List.length_append, List.length_cons, List.length_nil] at within
    cases bound with
    | nil => simp at within
    | cons c bound =>
      rw [List.length_cons] at within
      obtain ⟨pieces, same, tokens, reads⟩ :=
        accepts_statements extra place 0 statements wellFormed bound (by omega)
      have accepts := accepts_braces reads c ts
      rw [tokens, same] at accepts
      rw [Block.tokens, List.cons_append, List.cons_append, List.append_assoc]
      exact accepts

theorem accepts_conditional (extra : AtPlaces) (place : List Nat) (conditional : Conditional)
    (wellFormed : conditional.WellFormed) (bound : List Char)
    (within : (conditional.tokens extra place).length ≤ bound.length) (ts : List Token)
    (after : AfterStatement ts) :
    Accepts (conditionalWithin bound) (spaced (conditional.tokens extra place ++ ts))
      (·.erase = conditional.erase) (gap ts) := by
  cases conditional with
  | mk condition body otherwise span =>
    simp only [Conditional.tokens, List.length_append, List.length_cons] at within
    cases bound with
    | nil => simp at within
    | cons c bound =>
      rw [List.length_cons] at within
      have written := written_whole extra (0 :: place) condition wellFormed.1
      have accepts := accepts_block extra (1 :: place) body wellFormed.2.1 bound (by omega)
        (otherwise.tokens extra (2 :: place) ++ ts)
      have goesOn := accepts_otherwise extra (2 :: place) otherwise wellFormed.2.2 bound (by omega)
        ts after
      obtain ⟨inside, same⟩ := block_tokens extra (1 :: place) body
      rw [same] at accepts
      simp only [Conditional.tokens, same, List.cons_append, List.append_assoc]
      exact accepts_conditionalOver written accepts goesOn

theorem accepts_otherwise (extra : AtPlaces) (place : List Nat) (otherwise : Otherwise)
    (wellFormed : otherwise.WellFormed) (bound : List Char)
    (within : (otherwise.tokens extra place).length ≤ bound.length) (ts : List Token)
    (after : AfterStatement ts) :
    Accepts (optional (otherwiseOver (blockWithin bound) (conditionalWithin bound)))
      (gap (otherwise.tokens extra place ++ ts))
      (fun value => (value.getD .nothing).erase = otherwise.erase) (gap ts) := by
  cases otherwise with
  | nothing =>
    have noElse : Rejects (otherwiseOver (blockWithin bound) (conditionalWithin bound)) (gap ts) :=
      (accepts_blanks after.solid).bind_rejects fun _ _ => after.noElse.bind
    refine noElse.optional.imp fun value none => ?_
    rw [none]
    rfl
  | block block =>
    rw [Otherwise.tokens, List.length_cons] at within
    have accepts := accepts_block extra (0 :: place) block wellFormed bound (by omega) ts
    obtain ⟨inside, same⟩ := block_tokens extra (0 :: place) block
    rw [Otherwise.tokens]
    rw [same] at accepts ⊢
    have noConditional :
        Rejects (conditionalWithin bound) (spaced ("\x7b".toList :: (inside ++ ts))) :=
      rejects_conditional separate_brace (by decide) bound _
    refine accepts_else rfl (noConditional.bind.firstOf_tail (Accepts.firstOf_head ?_))
    refine accepts.bind fun read known => accepts_pure ?_
    rw [Otherwise.erase, Otherwise.erase, known]
  | chain conditional =>
    rw [Otherwise.tokens, List.length_cons] at within
    have accepts := accepts_conditional extra (0 :: place) conditional wellFormed bound (by omega) ts
      after
    obtain ⟨inside, same⟩ := conditional_tokens extra (0 :: place) conditional
    rw [Otherwise.tokens]
    rw [same] at accepts ⊢
    refine accepts_else rfl (Accepts.firstOf_head ?_)
    refine accepts.bind fun read known => accepts_pure ?_
    rw [Otherwise.erase, Otherwise.erase, known]

end

theorem accepts_body (extra : AtPlaces) (place : List Nat) (body : Block)
    (wellFormed : body.WellFormed) (ts : List Token) :
    Accepts Grammar.block (spaced (body.tokens extra place ++ ts)) (·.erase = body.erase)
      (gap ts) := by
  intro position
  have within := length_le_bound (body.tokens extra place ++ ts) position
  rw [List.length_append] at within
  exact accepts_block extra place body wellFormed _ (Nat.le_of_add_right_le within) ts position

end LeoFront.Grammar

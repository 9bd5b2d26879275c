import LeoFront.Proofs.RoundTrip.Expressions

namespace LeoFront.Grammar
open LeoFront.Parser
variable {α : Type} {value target : Expression} {tokens targetTokens ts : List Token} {t : Token}
  {bound : List Char}

theorem accepts_operand {p : Expression → Parser α} {good : α → Prop} {rest : List Char}
    (written : Written 0 value tokens) (follows : Follows 0 ts)
    (accepts : ∀ read, read.erase = value.erase → Accepts (p read) (gap ts) good rest) :
    Accepts (do
      blanks
      let read ← Grammar.expression
      p read) (gap (tokens ++ ts)) good rest :=
  (accepts_blanks (written.solid ts)).bind fun _ _ =>
    (accepts_expression written follows).bind accepts

theorem accepts_annotated (mark : String) {type : Option Ty}
    (wellFormed : ∀ known, type = some known → known.WellFormed) (solid : Solid ts)
    (stop : Rejects (literal mark) (spaced ts)) :
    Accepts (optional do
      literal mark
      blanks
      let type ← Grammar.type
      blanks
      return type) (spaced (annotated mark type ++ ts))
      (fun read => read.map Ty.erase = type.map Ty.erase) (spaced ts) := by
  cases type with
  | none =>
    refine stop.bind.optional.imp fun read none => ?_
    rw [none]
  | some type =>
    have isType := wellFormed type rfl
    have accepts : Accepts (do
        literal mark
        blanks
        let type ← Grammar.type
        blanks
        return type) (spaced (mark.toList :: (type.tokens ++ ts))) (·.erase = type.erase)
        (spaced ts) := by
      refine (accepts_literal mark _).bind fun _ _ => ?_
      refine (accepts_blanks (solid_type isType ts)).bind fun _ _ => ?_
      refine (accepts_type isType ts).bind fun read same => ?_
      exact (accepts_blanks solid).bind fun _ _ => accepts_pure same
    refine accepts.optional.imp ?_
    rintro read ⟨known, rfl, same⟩
    rw [Option.map_some, Option.map_some, same]

theorem reads_expression (limit : Nat) : Reads Grammar.expression 0 limit :=
  fun _ _ _ written _ follows => accepts_expression written follows

theorem accepts_return (written : Written 0 value tokens) (ts : List Token) :
    Accepts returnStatement (spaced ("return".toList :: (tokens ++ ";".toList :: ts)))
      (·.erase = .ret value.erase .none) (gap ts) := by
  refine Accepts.spanned ((accepts_word "return" _).bind fun _ _ => ?_)
  refine accepts_operand written (follows_closer (by decide) 0 ts) fun read same => ?_
  refine accepts_past ";" ts rfl (accepts_pure fun span => ?_)
  rw [Statement.erase, same]

theorem accepts_binding {binding : Binding} (wellFormed : binding.WellFormed)
    (written : Written 0 binding.value tokens) (ts : List Token) :
    Accepts bindingStatement (spaced (binding.kind.text.toList :: binding.name.name.toList ::
      (annotated ":" binding.type ++ "=".toList :: (tokens ++ ";".toList :: ts))))
      (·.erase = .binding binding.erase) (gap ts) := by
  have kinds (kind : BindingKind) (ts : List Token) :
      Accepts (oneWord [("let", BindingKind.mutable), ("const", .constant)])
        (spaced (kind.text.toList :: ts)) (· = kind) (gap ts) := by
    intro position
    cases kind <;> cases ts <;> exact ⟨_, _, rfl, rfl⟩
  have equals (rest : List Token) : Solid ("=".toList :: rest) := rfl
  have noColon (rest : List Token) : Rejects (literal ":") (spaced ("=".toList :: rest)) :=
    fun _ => rfl
  have solid : Solid (annotated ":" binding.type ++ "=".toList :: (tokens ++ ";".toList :: ts)) := by
    cases binding.type <;> rfl
  refine Accepts.spanned ((kinds _ _).bind fun kind sameKind => ?_)
  refine (accepts_blanks (IsName.solid wellFormed.name _)).bind fun _ _ => ?_
  refine (accepts_identifier wellFormed.name _).bind fun name sameName => ?_
  refine (accepts_blanks solid).bind fun _ _ => ?_
  refine (accepts_annotated ":" wellFormed.type (equals _) (noColon _)).bind fun type sameType => ?_
  refine (accepts_literal "=" _).bind fun _ _ => ?_
  refine accepts_operand written (follows_closer (by decide) 0 ts) fun read same => ?_
  refine accepts_past ";" ts rfl (accepts_pure fun span => ?_)
  rw [Statement.erase, Binding.erase, Binding.erase, sameKind, sameName, sameType, same]

theorem accepts_console {pieces : List (Expression × List Token)} (function : ConsoleFunction)
    (written : ∀ piece ∈ pieces, Written 0 piece.1 piece.2) (ts : List Token) :
    Accepts consoleStatement (spaced ("console".toList :: ".".toList :: function.text.toList ::
      "(".toList :: (commas (pieces.map Prod.snd) ++ ")".toList :: ";".toList :: ts)))
      (·.erase = .console function (Expression.eraseEach (pieces.map Prod.fst)) .none)
      (gap ts) := by
  have functions (ts : List Token) :
      Accepts (oneText consoleFunctions) (spaced (function.text.toList :: ts)) (· = function)
        (gap ts) := by
    intro position
    cases function <;> exact ⟨_, _, rfl, rfl⟩
  have visible (ts : List Token) : Solid (function.text.toList :: ts) := by
    cases function <;> rfl
  have solid := solid_commas (fun piece member after => (written piece member).solid after)
    (show Solid (")".toList :: ";".toList :: ts) from rfl)
  obtain ⟨rest, read, skip⟩ := accepts_arguments (reads_expression _) (fun _ _ => rfl) written
    (Nat.le_refl _) (";".toList :: ts)
  refine Accepts.spanned ((accepts_literal "console" _).bind fun _ _ => ?_)
  refine accepts_past "." _ rfl ?_
  refine (accepts_blanks (visible _)).bind fun _ _ => ?_
  refine (functions _).bind fun name sameFunction => ?_
  refine accepts_past "(" _ rfl ?_
  refine (accepts_blanks solid).bind fun _ _ => ?_
  refine read.bind fun values same => skip.bind fun _ _ => ?_
  refine (accepts_literal ")" _).bind fun _ _ => ?_
  refine accepts_past ";" ts rfl (accepts_pure fun span => ?_)
  rw [Statement.erase, sameFunction, same]

theorem follows_assignOperator (op : AssignOp) (ts : List Token) :
    Follows 0 (op.text.toList :: ts) := by
  cases op <;> exact follows_closer (by decide) 0 ts

theorem accepts_assign (op : AssignOp) (place : Written 0 target targetTokens)
    (written : Written 0 value tokens) (ts : List Token) :
    Accepts assignStatement
      (spaced (targetTokens ++ op.text.toList :: (tokens ++ ";".toList :: ts)))
      (·.erase = .assign op target.erase value.erase .none) (gap ts) := by
  have operators (ts : List Token) :
      Accepts assignOperator (spaced (op.text.toList :: ts)) (· = op) (gap ts) := by
    intro position
    cases op <;> cases ts <;> exact ⟨_, _, rfl, rfl⟩
  have follows := follows_assignOperator op (tokens ++ ";".toList :: ts)
  refine Accepts.spanned ((accepts_expression place follows).bind fun read samePlace => ?_)
  refine (accepts_blanks follows.solid).bind fun _ _ => ?_
  refine (operators _).bind fun read sameOp => ?_
  refine accepts_operand written (follows_closer (by decide) 0 ts) fun read same => ?_
  refine accepts_past ";" ts rfl (accepts_pure fun span => ?_)
  rw [Statement.erase, sameOp, samePlace, same]

theorem rejects_assign (written : Written 0 value tokens) (ts : List Token) :
    Rejects assignStatement (spaced (tokens ++ ";".toList :: ts)) := by
  have noOperator : Rejects assignOperator (spaced (";".toList :: ts)) := fun _ => rfl
  have follows := follows_closer (show ";" ∈ closers by decide) 0 ts
  exact ((accepts_expression written follows).bind_rejects fun _ _ =>
    (accepts_blanks_before ";" ts rfl).bind_rejects fun _ _ => noOperator.bind).spanned

theorem accepts_expressionStatement (written : Written 0 value tokens) (ts : List Token) :
    Accepts expressionStatement (spaced (tokens ++ ";".toList :: ts))
      (·.erase = .expression value.erase .none) (gap ts) := by
  have follows := follows_closer (show ";" ∈ closers by decide) 0 ts
  refine Accepts.spanned ((accepts_expression written follows).bind fun read same => ?_)
  refine accepts_past ";" ts rfl (accepts_pure fun span => ?_)
  rw [Statement.erase, same]

variable {block : Parser Block} {conditional : Parser Conditional} {body : Block}

theorem accepts_loop {head : LoopHead} {startTokens stopTokens inside : List Token}
    (wellFormed : head.WellFormed) (start : Written 0 head.start startTokens)
    (stop : Written 0 head.stop stopTokens)
    (accepts : Accepts block (spaced ("\x7b".toList :: inside)) (·.erase = body.erase) (gap ts)) :
    Accepts (loopStatement block) (spaced ("for".toList :: head.name.name.toList :: ":".toList ::
      (head.type.tokens ++ "in".toList :: (startTokens ++ "..".toList ::
        (stopTokens ++ "\x7b".toList :: inside)))))
      (·.erase = .loop head.erase body.erase .none) (gap ts) := by
  refine Accepts.spanned ((accepts_word "for" _).bind fun _ _ => ?_)
  refine (accepts_blanks (IsName.solid wellFormed.name _)).bind fun _ _ => ?_
  refine (accepts_identifier wellFormed.name _).bind fun name sameName => ?_
  refine accepts_past ":" _ rfl ?_
  refine (accepts_blanks (solid_type wellFormed.type _)).bind fun _ _ => ?_
  refine (accepts_type wellFormed.type _).bind fun type sameType => ?_
  refine (accepts_blanks_before "in" _ rfl).bind fun _ _ => ?_
  refine (accepts_word "in" _).bind fun _ _ => ?_
  refine accepts_operand start (follows_closer (by decide) 0 _) fun first sameStart => ?_
  refine accepts_past ".." _ rfl ?_
  refine accepts_operand stop (follows_closer (by decide) 0 _) fun last sameStop => ?_
  refine (accepts_blanks_before "\x7b" _ rfl).bind fun _ _ => ?_
  refine accepts.bind fun read same => accepts_pure fun span => ?_
  rw [Statement.erase, LoopHead.erase, LoopHead.erase, sameName, sameType, sameStart, sameStop, same]

theorem accepts_conditionalOver {otherwise : Otherwise} {inside : List Token} {middle : List Char}
    (written : Written 0 value tokens)
    (accepts : Accepts block (spaced ("\x7b".toList :: inside)) (·.erase = body.erase) middle)
    (goesOn : Accepts (optional (otherwiseOver block conditional)) middle
      (fun read => (read.getD .nothing).erase = otherwise.erase) (gap ts)) :
    Accepts (conditionalOver block conditional)
      (spaced ("if".toList :: (tokens ++ "\x7b".toList :: inside)))
      (·.erase = .mk value.erase body.erase otherwise.erase .none) (gap ts) := by
  refine Accepts.spanned ((accepts_word "if" _).bind fun _ _ => ?_)
  refine accepts_operand written (follows_closer (by decide) 0 _) fun condition same => ?_
  refine (accepts_blanks_before "\x7b" _ rfl).bind fun _ _ => ?_
  refine accepts.bind fun read sameBody => goesOn.bind fun other sameOther => ?_
  refine accepts_pure fun span => ?_
  rw [Conditional.erase, same, sameBody, sameOther]

theorem accepts_else {otherwise : Otherwise} {rest : List Token} (solid : Solid rest)
    (accepts : Accepts (firstOf [
      (do return .chain (← conditional) : Parser Otherwise),
      do return .block (← block)]) (spaced rest) (·.erase = otherwise.erase) (gap ts)) :
    Accepts (optional (otherwiseOver block conditional)) (gap ("else".toList :: rest))
      (fun read => (read.getD .nothing).erase = otherwise.erase) (gap ts) := by
  have whole : Accepts (otherwiseOver block conditional) (gap ("else".toList :: rest))
      (·.erase = otherwise.erase) (gap ts) := by
    refine (accepts_blanks_before "else" rest rfl).bind fun _ _ => ?_
    refine (accepts_word "else" rest).bind fun _ _ => ?_
    exact (accepts_blanks solid).bind fun _ _ => accepts
  refine whole.optional.imp ?_
  rintro read ⟨known, rfl, same⟩
  exact same

theorem rejects_conditional (separate : Separate t) (other : "if".toList ≠ t) (bound : List Char)
    (ts : List Token) : Rejects (conditionalWithin bound) (spaced (t :: ts)) := by
  cases bound with
  | nil => exact fun _ => rfl
  | cons _ bound =>
    have run : IsRun "if".toList := by decide
    exact (rejects_word run separate other).bind.spanned

theorem separate_brace : Separate "\x7b".toList := by
  refine .inr ?_
  rintro c ⟨⟩
  rfl

theorem rejects_block (brace : t.head? ≠ some '\x7b') (bound : List Char) (ts : List Token) :
    Rejects (blockWithin bound) (spaced (t :: ts)) := by
  cases bound with
  | nil => exact fun _ => rfl
  | cons _ bound =>
    have other : ¬ "\x7b".toList <+: t := by
      rintro ⟨more, rfl⟩
      exact brace rfl
    exact (rejects_literal (by decide) other).bind.spanned

theorem rejects_console (separate : Separate t) (other : "console".toList ≠ t) (ts : List Token) :
    Rejects consoleStatement (spaced (t :: ts)) := by
  refine Rejects.spanned ?_
  by_cases begins : "console".toList <+: t
  · obtain ⟨more, rfl⟩ := begins
    rw [spaced, List.append_assoc]
    refine (accepts_text "console" _).bind_rejects fun _ _ => ?_
    rcases more with _ | ⟨c, more⟩
    · simp at other
    · -- the word goes on, so no point follows it
      have part : wordPart.contains c = true := by
        rcases separate with parts | mark
        · exact parts c (by simp)
        · exact absurd (mark 'c' rfl) (by decide)
      have solid : Solid ((c :: more) :: ts) :=
        blankRun_of_solid_head _ (wordPart_visible part).1 (wordPart_visible part).2
      refine (accepts_no_blanks solid).bind_rejects fun _ _ => Rejects.bind ?_
      refine rejects_literal (by decide) ?_
      rintro ⟨_, same⟩
      cases same
      exact absurd part (by decide)
  · exact (rejects_literal (by decide) begins).bind

theorem Opening.chooses_statement {good : Statement → Prop} {rest : List Char} (opening : Opening t)
    (accepts : Accepts (firstOf [assignStatement, expressionStatement]) (spaced (t :: ts)) good
      rest) :
    Accepts (statementOver (blockWithin bound) (conditionalWithin bound)) (spaced (t :: ts)) good
      rest := by
  have other (keyword : String) (member : keyword ∈ statementWords) := opening.word keyword member
  have noReturn : Rejects returnStatement (spaced (t :: ts)) :=
    (rejects_word (by decide) opening.separate (other "return" (by decide))).bind.spanned
  have noBinding : Rejects bindingStatement (spaced (t :: ts)) := by
    refine (Rejects.bind (rejects_oneWord opening.separate ?_ ?_)).spanned
    · decide
    · simp only [List.forall_mem_cons, List.not_mem_nil, false_implies, implies_true, and_true]
      exact ⟨other "let" (by decide), other "const" (by decide)⟩
  have noLoop : Rejects (loopStatement (blockWithin bound)) (spaced (t :: ts)) :=
    (rejects_word (by decide) opening.separate (other "for" (by decide))).bind.spanned
  have noConditional := rejects_conditional opening.separate (other "if" (by decide)) bound ts
  have noConsole := rejects_console opening.separate (other "console" (by decide)) ts
  have noBlock := rejects_block opening.brace bound ts
  refine noReturn.firstOf_tail (noBinding.firstOf_tail (noConditional.bind.firstOf_tail ?_))
  exact noLoop.firstOf_tail (noConsole.firstOf_tail (noBlock.bind.firstOf_tail accepts))

theorem chooses_binding {good : Statement → Prop} {rest : List Char} (kind : BindingKind)
    (accepts : Accepts bindingStatement (spaced (kind.text.toList :: ts)) good rest) :
    Accepts (statementOver (blockWithin bound) (conditionalWithin bound))
      (spaced (kind.text.toList :: ts)) good rest := by
  have noReturn : Rejects returnStatement (spaced (kind.text.toList :: ts)) := by
    cases kind <;> exact fun _ => rfl
  exact noReturn.firstOf_tail accepts.firstOf_head

theorem chooses_conditional {tree : Conditional} {rest : List Char}
    (accepts : Accepts (conditionalWithin bound) (spaced ("if".toList :: ts))
      (·.erase = tree.erase) rest) :
    Accepts (statementOver (blockWithin bound) (conditionalWithin bound))
      (spaced ("if".toList :: ts)) (·.erase = .conditional tree.erase) rest := by
  have noReturn : Rejects returnStatement (spaced ("if".toList :: ts)) := fun _ => rfl
  have noBinding : Rejects bindingStatement (spaced ("if".toList :: ts)) := fun _ => rfl
  refine noReturn.firstOf_tail (noBinding.firstOf_tail (Accepts.firstOf_head ?_))
  refine accepts.bind fun read known => accepts_pure ?_
  rw [Statement.erase, known]

theorem chooses_loop {good : Statement → Prop} {rest : List Char}
    (accepts : Accepts (loopStatement (blockWithin bound)) (spaced ("for".toList :: ts)) good
      rest) :
    Accepts (statementOver (blockWithin bound) (conditionalWithin bound))
      (spaced ("for".toList :: ts)) good rest := by
  have noReturn : Rejects returnStatement (spaced ("for".toList :: ts)) := fun _ => rfl
  have noBinding : Rejects bindingStatement (spaced ("for".toList :: ts)) := fun _ => rfl
  have noConditional : Rejects (conditionalWithin bound) (spaced ("for".toList :: ts)) :=
    rejects_conditional (IsRun.separate (by decide)) (by decide) bound ts
  refine noReturn.firstOf_tail (noBinding.firstOf_tail ?_)
  exact noConditional.bind.firstOf_tail accepts.firstOf_head

theorem chooses_console {good : Statement → Prop} {rest : List Char}
    (accepts : Accepts consoleStatement (spaced ("console".toList :: ts)) good rest) :
    Accepts (statementOver (blockWithin bound) (conditionalWithin bound))
      (spaced ("console".toList :: ts)) good rest := by
  have noReturn : Rejects returnStatement (spaced ("console".toList :: ts)) := fun _ => rfl
  have noBinding : Rejects bindingStatement (spaced ("console".toList :: ts)) := fun _ => rfl
  have noConditional : Rejects (conditionalWithin bound) (spaced ("console".toList :: ts)) :=
    rejects_conditional (IsRun.separate (by decide)) (by decide) bound ts
  have noLoop : Rejects (loopStatement (blockWithin bound)) (spaced ("console".toList :: ts)) :=
    fun _ => rfl
  refine noReturn.firstOf_tail (noBinding.firstOf_tail ?_)
  exact noConditional.bind.firstOf_tail (noLoop.firstOf_tail accepts.firstOf_head)

theorem chooses_block {rest : List Char}
    (accepts : Accepts (blockWithin bound) (spaced ("\x7b".toList :: ts)) (·.erase = body.erase)
      rest) :
    Accepts (statementOver (blockWithin bound) (conditionalWithin bound))
      (spaced ("\x7b".toList :: ts)) (·.erase = .block body.erase) rest := by
  have noReturn : Rejects returnStatement (spaced ("\x7b".toList :: ts)) := fun _ => rfl
  have noBinding : Rejects bindingStatement (spaced ("\x7b".toList :: ts)) := fun _ => rfl
  have noConditional : Rejects (conditionalWithin bound) (spaced ("\x7b".toList :: ts)) :=
    rejects_conditional separate_brace (by decide) bound ts
  have noLoop : Rejects (loopStatement (blockWithin bound)) (spaced ("\x7b".toList :: ts)) :=
    fun _ => rfl
  have noConsole : Rejects consoleStatement (spaced ("\x7b".toList :: ts)) := fun _ => rfl
  refine noReturn.firstOf_tail (noBinding.firstOf_tail (noConditional.bind.firstOf_tail ?_))
  refine noLoop.firstOf_tail (noConsole.firstOf_tail (Accepts.firstOf_head ?_))
  refine accepts.bind fun read known => accepts_pure ?_
  rw [Statement.erase, known]

end LeoFront.Grammar

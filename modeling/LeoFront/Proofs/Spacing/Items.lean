import LeoFront.Proofs.Spacing.Expressions

namespace LeoFront.Grammar
open LeoFront.Parser
variable {C : Comparison} {m n depth : Nat}

theorem steps_importSymbol :
    Steps C m n depth importSymbol importSymbol (C.Agree ImportSymbol.move) := by
  have other : Lockstep C m n (C.Loose depth) (do
      blanks
      word "as"
      blanks
      identifier) (do
      blanks
      word "as"
      blanks
      identifier) (C.Agree Identifier.move) (C.Loose depth) :=
    .bind lockstep_blanks fun _ _ _ => .bind (steps_word (by decide)) fun _ _ _ =>
      .bind lockstep_blanks fun _ _ _ => steps_identifier
  refine .spanned (.bind steps_identifier fun symbol symbol' same => ?_)
  refine .bind (other.optional fun _ _ => id) fun renamed renamed' same' =>
    .pure (fun span span' spans => ?_) fun _ _ => id
  simp only [ImportSymbol.move]
  rw [same, same', spans]

section
variable {inner inner' : Parser Access} [Advances inner] [Advances inner']
  (accesses : Steps C m n depth inner inner' (C.Agree Access.move))
include accesses

theorem steps_packageOver :
    Steps C (m + 1) (n + 1) depth (packageOver inner) (packageOver inner')
      (C.Agree Package.move) := by
  refine .spanned (.deeper consumes_identifier consumes_identifier steps_identifier
    fun name name' same => ?_)
  refine .bind lockstep_blanks fun _ _ _ => .bind (steps_literal (by decide)) fun _ _ _ => ?_
  refine .bind lockstep_blanks fun _ _ _ => .bind accesses fun access access' same' =>
    .pure (fun span span' spans => ?_) fun _ _ => id
  simp only [Package.move]
  rw [same, same', spans]

theorem steps_accessOver :
    Steps C (m + 1) (n + 1) depth (accessOver inner) (accessOver inner')
      (C.Agree Access.move) := by
  refine .or (.spanned ?_) (.or (.spanned ?_) (.or ?_ (.or ?_ .fail)))
  · exact .bind (steps_literal (by decide)) fun _ _ _ =>
      .pure (fun _ _ spans => congrArg Access.star spans) fun _ _ => id
  · have opens : Consumes (literal "(") := consumes_literal (by decide)
    have comma : Lockstep C m n (C.Solid depth) (literal ",") (literal ",")
        (fun _ _ => () = ()) (C.Loose depth) :=
      (steps_literal (by decide)).imp (fun _ _ _ => rfl) fun _ _ => id
    refine .deeper opens opens (steps_literal (by decide)) fun _ _ _ => ?_
    refine .bind lockstep_blanks fun _ _ _ => .bind (lockstep_separated accesses) fun _ _ same => ?_
    refine .bind lockstep_blanks fun _ _ _ => ?_
    refine .bind (comma.optional fun _ _ => Comparison.Solid.loose) fun _ _ _ => ?_
    refine .bind lockstep_blanks fun _ _ _ => .bind (steps_literal (by decide)) fun _ _ _ =>
      .pure (fun span span' spans => ?_) fun _ _ => id
    simp only [Comparison.Agree, Access.move, Access.moveEach_eq_map] at same ⊢
    rw [same, spans]
  · refine .bind (steps_packageOver accesses) fun package package' same => .pure ?_ fun _ _ => id
    exact congrArg (fun package : Package => Access.subPackage package.name package.access
      package.span) same
  · exact .bind steps_importSymbol fun _ _ same =>
      .pure (congrArg Access.symbol same) fun _ _ => id

end

theorem steps_accessWithin (bound bound' : List Char) :
    Steps C bound.length bound'.length depth (accessWithin bound) (accessWithin bound')
      (C.Agree Access.move) := by
  induction bound generalizing bound' with
  | nil => exact fun _ _ below => absurd below (Nat.not_lt_zero _)
  | cons _ bound ih =>
    cases bound' with
    | nil => exact fun _ _ _ below => absurd below (Nat.not_lt_zero _)
    | cons _ bound' => exact steps_accessOver (ih bound')

theorem steps_access : Steps C m n depth access access (C.Agree Access.move) :=
  .bounded steps_accessWithin

theorem lockstep_importStatement :
    Lockstep C m n (C.Solid 0) importStatement importStatement (C.Agree Import.move) C.after := by
  have package : Steps C m n 0 (packageOver access) (packageOver access) (C.Agree Package.move) :=
    (steps_packageOver steps_access).of_below (Nat.le_succ m) (Nat.le_succ n)
  refine .spanned (.bind (steps_word (by decide)) fun _ _ _ => ?_)
  refine .bind lockstep_blanks fun _ _ _ => .bind package fun package package' same => ?_
  refine .bind lockstep_blanks fun _ _ _ => .bind (lockstep_mark rfl (by decide)) fun _ _ _ => ?_
  refine .pure (fun span span' spans => ?_) fun _ _ => id
  simp only [Import.move]
  rw [same, spans]

theorem steps_semicolon :
    Steps C m n (depth + 1) (literal ";") (literal ";") fun _ _ => True :=
  (lockstep_mark (c := ';') rfl (by decide)).imp (fun _ _ => id) fun _ _ near =>
    ⟨';', trivial, near⟩

theorem lockstep_opening : Lockstep C m n (C.Solid depth) (literal "\x7b") (literal "\x7b")
    (fun _ _ => True) (C.Loose (depth + 1)) :=
  (lockstep_mark (c := '\x7b') rfl (by decide)).imp (fun _ _ => id) fun _ _ near =>
    ⟨'\x7b', trivial, near⟩

abbrev Comparison.Closed (C : Comparison) (depth : Nat) : List Char → List Char → Prop :=
  C.Behind (depth + 1) '\x7d'

theorem Comparison.Closed.loose {s t : List Char} (closed : C.Closed (depth + 1) s t) :
    C.Loose (depth + 1) s t := ⟨'\x7d', trivial, closed⟩

theorem lockstep_closing : Lockstep C m n (C.Solid (depth + 1)) (literal "\x7d") (literal "\x7d")
    (fun _ _ => True) (C.Closed depth) :=
  lockstep_mark rfl (by decide)

theorem steps_returnStatement :
    Steps C m n (depth + 1) returnStatement returnStatement (C.Agree Statement.move) := by
  refine .spanned (.bind (steps_word (by decide)) fun _ _ _ => ?_)
  refine .bind lockstep_blanks fun _ _ _ => .bind steps_expression fun _ _ same => ?_
  exact .bind lockstep_blanks fun _ _ _ => .bind steps_semicolon fun _ _ _ =>
    .pure (fun _ _ spans => congrArg₂ Statement.ret same spans) fun _ _ => id

theorem steps_bindingStatement :
    Steps C m n (depth + 1) bindingStatement bindingStatement (C.Agree Statement.move) := by
  have annotated : Lockstep C m n (C.Solid (depth + 1)) typeAnnotation typeAnnotation
      (C.Agree Ty.move) (C.Solid (depth + 1)) := by
    refine .bind (steps_literal (by decide)) fun _ _ _ => .bind lockstep_blanks fun _ _ _ => ?_
    exact .bind steps_type fun _ _ same => .bind lockstep_blanks fun _ _ _ =>
      .pure same fun _ _ => id
  refine .spanned (.bind (steps_oneWord (by decide)) ?_)
  rintro kind _ rfl
  refine .bind lockstep_blanks fun _ _ _ => .bind steps_identifier fun _ _ name => ?_
  refine .bind lockstep_blanks fun _ _ _ => .bind (annotated.optional fun _ _ => id)
    fun _ _ type => ?_
  refine .bind (steps_literal (by decide)) fun _ _ _ => .bind lockstep_blanks fun _ _ _ => ?_
  refine .bind steps_expression fun _ _ value => .bind lockstep_blanks fun _ _ _ => ?_
  refine .bind steps_semicolon fun _ _ _ => .pure (fun span span' spans => ?_) fun _ _ => id
  simp only [Statement.move, Binding.move]
  rw [name, type, value, spans]

theorem steps_consoleStatement :
    Steps C m n (depth + 1) consoleStatement consoleStatement (C.Agree Statement.move) := by
  refine .spanned (.bind (steps_literal (by decide)) fun _ _ _ => ?_)
  refine .bind lockstep_blanks fun _ _ _ => .bind (steps_literal (by decide)) fun _ _ _ => ?_
  refine .bind lockstep_blanks fun _ _ _ => .bind (steps_oneText (by decide)) ?_
  rintro function _ rfl
  refine .bind lockstep_blanks fun _ _ _ => .bind (steps_literal (by decide)) fun _ _ _ => ?_
  refine .bind lockstep_blanks fun _ _ _ => .bind (lockstep_arguments steps_expression)
    fun _ _ same => ?_
  refine .bind lockstep_blanks fun _ _ _ => .bind (steps_literal (by decide)) fun _ _ _ => ?_
  exact .bind lockstep_blanks fun _ _ _ => .bind steps_semicolon fun _ _ _ =>
    .pure (fun _ _ spans => congrArg₂ (Statement.console function) same spans) fun _ _ => id

theorem steps_assignOperator :
    Steps C m n depth assignOperator assignOperator (· = ·) := by
  refine .or (steps_oneText (by decide)) (.or (.bind (lockstep_symbol rfl (by decide))
    fun _ _ _ => ?_) .fail)
  have joins : clash '=' '=' = true := by decide
  refine .bind (lockstep_notBefore rfl ?_) fun _ _ _ => .pure rfl Comparison.Past.loose
  rintro _ rfl
  exact joins

theorem steps_assignStatement :
    Steps C m n (depth + 1) assignStatement assignStatement (C.Agree Statement.move) := by
  refine .spanned (.bind steps_expression fun _ _ place => .bind lockstep_blanks fun _ _ _ => ?_)
  refine .bind steps_assignOperator ?_
  rintro op _ rfl
  refine .bind lockstep_blanks fun _ _ _ => .bind steps_expression fun _ _ value => ?_
  refine .bind lockstep_blanks fun _ _ _ => .bind steps_semicolon fun _ _ _ =>
    .pure (fun span span' spans => ?_) fun _ _ => id
  simp only [Statement.move]
  rw [place, value, spans]

theorem steps_expressionStatement :
    Steps C m n (depth + 1) expressionStatement expressionStatement (C.Agree Statement.move) := by
  refine .spanned (.bind steps_expression fun _ _ same => .bind lockstep_blanks fun _ _ _ => ?_)
  exact .bind steps_semicolon fun _ _ _ =>
    .pure (fun _ _ spans => congrArg₂ Statement.expression same spans) fun _ _ => id

section
variable {block block' : Parser Block} {conditional conditional' : Parser Conditional}
  [Advances block] [Advances block'] [Advances conditional] [Advances conditional']
  (blocks : Steps C m n (depth + 1) block block' (C.Agree Block.move))
  (conditionals : Steps C m n (depth + 1) conditional conditional' (C.Agree Conditional.move))
include blocks

theorem steps_loopStatement :
    Steps C m n (depth + 1) (loopStatement block) (loopStatement block')
      (C.Agree Statement.move) := by
  refine .spanned (.bind (steps_word (by decide)) fun _ _ _ => ?_)
  refine .bind lockstep_blanks fun _ _ _ => .bind steps_identifier fun _ _ name => ?_
  refine .bind lockstep_blanks fun _ _ _ => .bind (steps_literal (by decide)) fun _ _ _ => ?_
  refine .bind lockstep_blanks fun _ _ _ => .bind steps_type fun _ _ type => ?_
  refine .bind lockstep_blanks fun _ _ _ => .bind (steps_word (by decide)) fun _ _ _ => ?_
  refine .bind lockstep_blanks fun _ _ _ => .bind steps_expression fun _ _ start => ?_
  refine .bind lockstep_blanks fun _ _ _ => .bind (steps_literal (by decide)) fun _ _ _ => ?_
  refine .bind lockstep_blanks fun _ _ _ => .bind steps_expression fun _ _ stop => ?_
  refine .bind lockstep_blanks fun _ _ _ => .bind blocks fun _ _ body =>
    .pure (fun span span' spans => ?_) fun _ _ => id
  simp only [Statement.move, LoopHead.move]
  rw [name, type, start, stop, body, spans]

include conditionals

theorem steps_statementOver :
    Steps C m n (depth + 1) (statementOver block conditional) (statementOver block' conditional')
      (C.Agree Statement.move) := by
  refine .or steps_returnStatement (.or steps_bindingStatement (.or ?_
    (.or (steps_loopStatement blocks) (.or steps_consoleStatement (.or ?_
    (.or steps_assignStatement (.or steps_expressionStatement .fail)))))))
  · exact .bind conditionals fun _ _ same =>
      .pure (congrArg Statement.conditional same) fun _ _ => id
  · exact .bind blocks fun _ _ same => .pure (congrArg Statement.block same) fun _ _ => id

theorem lockstep_otherwiseOver :
    Lockstep C m n (C.Loose (depth + 1)) (otherwiseOver block conditional)
      (otherwiseOver block' conditional') (C.Agree Otherwise.move) (C.Loose (depth + 1)) := by
  refine .bind lockstep_blanks fun _ _ _ => .bind (steps_word (by decide)) fun _ _ _ => ?_
  refine .bind lockstep_blanks fun _ _ _ => .or ?_ (.or ?_ .fail)
  · exact .bind conditionals fun _ _ same =>
      .pure (congrArg Otherwise.chain same) fun _ _ => id
  · exact .bind blocks fun _ _ same => .pure (congrArg Otherwise.block same) fun _ _ => id

theorem steps_conditionalOver :
    Steps C (m + 1) (n + 1) (depth + 1) (conditionalOver block conditional)
      (conditionalOver block' conditional') (C.Agree Conditional.move) := by
  have consumes : Consumes (word "if") := (consumes_literal (by decide)).bind
  refine .spanned (.deeper consumes consumes (steps_word (by decide)) fun _ _ _ => ?_)
  refine .bind lockstep_blanks fun _ _ _ => .bind steps_expression fun _ _ condition => ?_
  refine .bind lockstep_blanks fun _ _ _ => .bind blocks fun _ _ body => ?_
  refine .bind ((lockstep_otherwiseOver blocks conditionals).optional fun _ _ => id)
    fun otherwise otherwise' same => .pure (fun span span' spans => ?_) fun _ _ => id
  have same : (otherwise.getD .nothing).move C.left = (otherwise'.getD .nothing).move C.right := by
    cases otherwise <;> cases otherwise' <;> simp_all [Otherwise.move]
  simp only [Conditional.move]
  rw [condition, body, same, spans]

end

theorem consumes_statementOver {block : Parser Block} {conditional : Parser Conditional}
    [Advances block] [Advances conditional] (consumes : Consumes block)
    (consumes' : Consumes conditional) : Consumes (statementOver block conditional) := by
  have semicolon : Consumes (literal ";") := consumes_literal (by decide)
  have word (text : String) (nonempty : text ≠ "") : Consumes (word text) :=
    (consumes_literal nonempty).bind
  refine .or (.spanned (word "return" (by decide)).bind)
    (.or (.spanned (consumes_oneWord (by decide)).bind)
    (.or consumes'.bind (.or (.spanned (word "for" (by decide)).bind)
    (.or (.spanned (consumes_literal (by decide)).bind)
    (.or consumes.bind (.or (.spanned ?_) (.or (.spanned ?_) consumes_fail)))))))
  -- an assignment and an expression have a semicolon in the end
  · exact .guarded fun _ => .guarded fun _ => .guarded fun _ => .guarded fun _ => .guarded fun _ =>
      .guarded fun _ => semicolon.bind
  · exact .guarded fun _ => .guarded fun _ => semicolon.bind

theorem consumes_nested (bound : List Char) :
    Consumes (blockWithin bound) ∧ Consumes (conditionalWithin bound) := by
  cases bound with
  | nil => exact ⟨consumes_fail, consumes_fail⟩
  | cons _ bound =>
    rw [blockWithin, conditionalWithin]
    have word : Consumes (word "if") := (consumes_literal (by decide)).bind
    exact ⟨.spanned (consumes_literal (by decide)).bind, .spanned word.bind⟩

theorem lockstep_blockOver {statement statement' : Parser Statement} [Advances statement]
    [Advances statement'] (consumes : Consumes statement) (consumes' : Consumes statement')
    (statements : Steps C m n (depth + 1) statement statement' (C.Agree Statement.move)) :
    Lockstep C (m + 1) (n + 1) (C.Solid depth) (blockOver statement) (blockOver statement')
      (C.Agree Block.move) (C.Closed depth) := by
  have opens : Consumes (literal "\x7b") := consumes_literal (by decide)
  have each : Lockstep C m n (C.Solid (depth + 1)) (do
      let statement ← statement
      blanks
      return statement) (do
      let statement ← statement'
      blanks
      return statement) (C.Agree Statement.move) (C.Solid (depth + 1)) :=
    .bind statements fun _ _ same => .bind lockstep_blanks fun _ _ _ => .pure same fun _ _ => id
  refine .spanned (.deeper opens opens lockstep_opening fun _ _ _ => ?_)
  refine .bind lockstep_blanks fun _ _ _ => .bind (each.many consumes.bind consumes'.bind)
    fun _ _ same => .bind lockstep_closing fun _ _ _ => .pure (fun span span' spans => ?_)
      fun _ _ => id
  simp only [Block.move, Statement.moveEach_eq_map]
  rw [same, spans]

theorem lockstep_nested (bound bound' : List Char) :
    (∀ depth, Lockstep C bound.length bound'.length (C.Solid depth) (blockWithin bound)
      (blockWithin bound') (C.Agree Block.move) (C.Closed depth)) ∧
    ∀ depth, Steps C bound.length bound'.length (depth + 1) (conditionalWithin bound)
      (conditionalWithin bound') (C.Agree Conditional.move) := by
  induction bound generalizing bound' with
  | nil =>
    exact ⟨fun _ _ _ below => absurd below (Nat.not_lt_zero _),
      fun _ _ _ below => absurd below (Nat.not_lt_zero _)⟩
  | cons _ bound ih =>
    cases bound' with
    | nil =>
      exact ⟨fun _ _ _ _ below => absurd below (Nat.not_lt_zero _),
        fun _ _ _ _ below => absurd below (Nat.not_lt_zero _)⟩
    | cons _ bound' =>
      obtain ⟨blocks, conditionals⟩ := ih bound'
      have inner (depth : Nat) : Steps C bound.length bound'.length (depth + 1) (blockWithin bound)
          (blockWithin bound') (C.Agree Block.move) :=
        (blocks (depth + 1)).imp (fun _ _ => id) fun _ _ => Comparison.Closed.loose
      have consumes (bound : List Char) := consumes_statementOver (consumes_nested bound).1
        (consumes_nested bound).2
      rw [blockWithin, conditionalWithin, blockWithin, conditionalWithin]
      refine ⟨fun depth => ?_, fun depth => ?_⟩
      · exact lockstep_blockOver (consumes bound) (consumes bound')
          (steps_statementOver (inner depth) (conditionals depth))
      · exact steps_conditionalOver (inner depth) (conditionals depth)

theorem lockstep_block :
    Lockstep C m n (C.Solid depth) block block (C.Agree Block.move) (C.Closed depth) :=
  .bounded fun bound bound' => (lockstep_nested bound bound').1 depth

theorem steps_member : Steps C m n depth member member (C.Agree Member.move) := by
  refine .bind steps_identifier fun _ _ name => .bind lockstep_blanks fun _ _ _ => ?_
  refine .bind (steps_literal (by decide)) fun _ _ _ => .bind lockstep_blanks fun _ _ _ => ?_
  exact .bind steps_type fun _ _ type => .pure (congrArg₂ Member.mk name type) fun _ _ => id

theorem lockstep_circuit :
    Lockstep C m n (C.Solid 0) circuit circuit (C.Agree Circuit.move) C.after := by
  refine .spanned (.bind (steps_oneWord (by decide)) ?_)
  rintro isRecord _ rfl
  refine .bind lockstep_blanks fun _ _ _ => .bind steps_identifier fun _ _ name => ?_
  refine .bind lockstep_blanks fun _ _ _ => .bind lockstep_opening fun _ _ _ => ?_
  refine .bind lockstep_blanks fun _ _ _ => ?_
  refine .bind (lockstep_possiblyEmpty (lockstep_separatedTrailing steps_member))
    fun _ _ members => ?_
  refine .bind lockstep_blanks fun _ _ _ => .bind lockstep_closing fun _ _ _ =>
    .pure (fun span span' spans => ?_) fun _ _ => id
  simp only [Comparison.Agree] at members
  simp only [Circuit.move]
  rw [name, members, spans]

theorem steps_input : Steps C m n depth input input (C.Agree Input.move) := by
  have moded : Lockstep C m n (C.Solid depth) (do
      let mode ← mode
      blanks
      return mode) (do
      let mode ← mode
      blanks
      return mode) (fun mode mode' => id mode = id mode') (C.Solid depth) := by
    refine .bind (steps_oneWord (by decide)) fun _ _ same => ?_
    exact .bind lockstep_blanks fun _ _ _ => .pure same fun _ _ => id
  refine .spanned (.bind (moded.optional fun _ _ => id) fun mode mode' same => ?_)
  refine .bind steps_identifier fun _ _ name => .bind lockstep_blanks fun _ _ _ => ?_
  refine .bind (steps_literal (by decide)) fun _ _ _ => .bind lockstep_blanks fun _ _ _ => ?_
  refine .bind steps_type fun _ _ type => .pure (fun span span' spans => ?_) fun _ _ => id
  rw [Option.map_id_apply, Option.map_id_apply] at same
  simp only [Input.move]
  rw [same, name, type, spans]

theorem lockstep_output : Lockstep C m n (C.Solid depth) output output (C.Agree Ty.move)
    (C.Solid depth) := by
  refine .bind (steps_literal (by decide)) fun _ _ _ => .bind lockstep_blanks fun _ _ _ => ?_
  exact .bind steps_type fun _ _ same => .bind lockstep_blanks fun _ _ _ =>
    .pure same fun _ _ => id

theorem lockstep_function :
    Lockstep C m n (C.Solid 0) function function (C.Agree FunctionDecl.move) C.after := by
  refine .spanned (.bind (steps_word (by decide)) fun _ _ _ => ?_)
  refine .bind lockstep_blanks fun _ _ _ => .bind steps_identifier fun _ _ name => ?_
  refine .bind lockstep_blanks fun _ _ _ => .bind (steps_literal (by decide)) fun _ _ _ => ?_
  refine .bind lockstep_blanks fun _ _ _ => ?_
  refine .bind (lockstep_possiblyEmpty (lockstep_separatedTrailing steps_input))
    fun _ _ inputs => ?_
  refine .bind lockstep_blanks fun _ _ _ => .bind (steps_literal (by decide)) fun _ _ _ => ?_
  refine .bind lockstep_blanks fun _ _ _ => .bind (lockstep_output.optional fun _ _ => id)
    fun _ _ output => ?_
  refine .bind lockstep_block fun _ _ body => .pure (fun span span' spans => ?_) fun _ _ => id
  simp only [Comparison.Agree] at inputs
  simp only [FunctionDecl.move]
  rw [name, inputs, output, body, spans]

theorem lockstep_item :
    Lockstep C m n (C.Solid 0) item item (C.Agree Item.move) C.after := by
  refine .or ?_ (.or ?_ (.or ?_ .fail))
  · exact .bind lockstep_importStatement fun _ _ same =>
      .pure (congrArg Item.statement same) fun _ _ => id
  · exact .bind lockstep_circuit fun _ _ same =>
      .pure (congrArg (fun declared => Item.declaration (.circuit declared)) same) fun _ _ => id
  · exact .bind lockstep_function fun _ _ same =>
      .pure (congrArg (fun declared => Item.declaration (.function declared)) same) fun _ _ => id

end LeoFront.Grammar

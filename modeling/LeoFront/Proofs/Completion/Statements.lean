import LeoFront.Proofs.Completion.Openings
import LeoFront.Proofs.Spacing.Items

namespace LeoFront.Grammar
open LeoFront.Parser
variable {C : Comparison} {good : List Char → Prop} {text rest : List Char}

instance : Nonempty AssignOp := ⟨.set⟩

instance : Nonempty BindingKind := ⟨.mutable⟩

instance : Nonempty ConsoleFunction := ⟨.log⟩

instance : Nonempty Block := ⟨.mk [] .none⟩

instance : Nonempty Conditional := ⟨.mk (.var "" .none) (.mk [] .none) .nothing .none⟩

instance : Nonempty Otherwise := ⟨.nothing⟩

instance : Nonempty Statement := ⟨.block (.mk [] .none)⟩

theorem sampled_closer {closer : String} (member : closer ∈ closers) (other : closer ≠ "=")
    (visible : Place.Visible closer.toList) :
    Sampled C (.solid (Stops 0)) closer.toList (literal closer) (literal closer) (· = ·)
      (.loose good) :=
  sampled_literal (Place.leads_solid visible fun rest _ => stops_closer member other rest)
    Place.behind_loose

theorem sampled_ending {α : Type} {made made' : α} :
    Sampled C (.loose (Stops 0)) ("\n".toList ++ (";".toList ++ [])) (do
      blanks
      literal ";"
      return made) (do
      blanks
      literal ";"
      return made') Unasked (.loose good) :=
  sampled_blanks.skip fun _ _ => (sampled_closer (by decide) (by decide) (by decide)).skip
    fun _ _ => .pure trivial (.refl _)

theorem viable_returnStatement :
    Viable C .token returnStatement returnStatement Unasked (.loose good) := by
  have visible : Place.Visible "return".toList := by decide
  exact .spanned_unasked ((sampled_word visible).toViable.spaced fun _ _ =>
    sampled_expression.skip fun _ _ => sampled_ending)

theorem sampled_marked {mark : String} (visible : Place.Visible mark.toList) : Sampled C .token
    (mark.toList ++ ("\n".toList ++ ("address".toList ++ ("\n".toList ++ [])))) (do
      literal mark
      blanks
      let type ← type
      blanks
      return type) (do
      literal mark
      blanks
      let type ← type
      blanks
      return type) Unasked .token :=
  (sampled_fixed visible Place.behind_loose).spaced fun _ _ =>
  sampled_type.spaced fun _ _ =>
  .pure trivial (.refl _)

theorem sampled_boundValue {make make' : Expression → Span → Statement} :
    Sampled C .token ("=".toList ++ ("\n".toList ++ ("true".toList ++ ("\n".toList ++
      (";".toList ++ []))))) (do
      literal "="
      blanks
      let value ← expression
      blanks
      literal ";"
      return make value) (do
      literal "="
      blanks
      let value ← expression
      blanks
      literal ";"
      return make' value) Unasked (.loose good) := by
  have visible : Place.Visible "=".toList := by decide
  exact (sampled_fixed visible Place.behind_loose).spaced fun _ _ =>
    sampled_expression.skip fun _ _ => sampled_ending

theorem viable_bindingStatement :
    Viable C .token bindingStatement bindingStatement Unasked (.loose good) := by
  have visible : AllVisible [("let", BindingKind.mutable), ("const", .constant)] := by decide
  have unlike : Unlike [("let", BindingKind.mutable), ("const", .constant)] := by decide
  have annotation : Sampled C .token _ typeAnnotation typeAnnotation Unasked .token :=
    sampled_marked (by decide)
  have colon : BeginsWith [":"] (literal ":") := begins_mark rfl (by decide)
  have equals : BeginsWith ["="] (literal "=") := begins_mark rfl (by decide)
  exact .spanned_unasked (
    (sampled_oneWord (leads_all visible) unlike).toViable.spaced fun _ _ =>
    sampled_identifier.spaced fun _ _ =>
    .option annotation (fun _ _ => sampled_boundValue) sampled_boundValue.toViable
      fun _ taken _ => colon.bind.told (equals.without (by decide)).bind taken)

theorem viable_consoleStatement :
    Viable C .token consoleStatement consoleStatement Unasked (.loose good) := by
  have visible : Place.Visible "console".toList ∧ Place.Visible ".".toList ∧
      Place.Visible "(".toList ∧ Place.Visible ";".toList := by decide
  have functions : AllVisible consoleFunctions := by decide
  have unlike : Unlike consoleFunctions := by decide
  have closing : Sampled C .token _ (literal ";") (literal ";") (· = ·) (.loose good) :=
    sampled_fixed visible.2.2.2 Place.behind_loose
  exact .spanned_unasked (
    (sampled_fixed visible.1 Place.behind_loose).toViable.spaced fun _ _ =>
    (sampled_fixed visible.2.1 Place.behind_loose).spaced fun _ _ =>
    (sampled_choice (leads_all functions) unlike Place.behind_loose).spaced fun _ _ =>
    (sampled_fixed visible.2.2.1 Place.behind_loose).spaced fun _ _ =>
    sampled_arguments sampled_expression heads_expression fun _ _ =>
    sampled_blanks.skip fun _ _ => closing.skip fun _ _ =>
    .pure (fun _ => trivial) (.refl _))

section
variable (op : AssignOp) (alone : op = .set → rest.head? ≠ some '=')
include alone

theorem takes_assignOperator (position : Position) :
    Takes assignOperator position op.text.toList op rest := by
  cases op
  case set =>
    have alone := alone rfl
    have guarded (position : Position) : Takes (notBefore "=") position [] () rest := by
      refine takes_guardRest ?_
      cases rest with
      | nil => rfl
      | cons c rest =>
        have apart : '=' ≠ c := fun same => alone (congrArg some same.symm)
        simpa [List.isPrefixOf] using apart
    have plain : Takes plainAssignment position "=".toList .set rest :=
      (takes_literal "=" position rest).ended ((guarded _).ended takes_pure)
    exact .or_right rfl (.or_left plain)
  all_goals rfl

theorem stops_assignOperator : Stops 0 (op.text.toList ++ rest) := by
  cases op
  case set => exact stops_equals (alone rfl)
  all_goals exact stops_closer (by decide) (by decide) rest

end

theorem bare_assignOperator (op : AssignOp) (rest : List Char) :
    blankRun (op.text.toList ++ rest) = 0 := by
  cases op
  case div =>
    change blankRun ('/' :: '=' :: rest) = 0
    exact blankRun_bare rfl fun _ => ⟨by simp, by simp⟩
  all_goals exact blankRun_visible rfl (by decide)

theorem assignOperator_text {position : Position} {op : AssignOp}
    (taken : Takes assignOperator position text op rest) :
    text = op.text.toList ∧ (op = .set → rest.head? ≠ some '=') := by
  rcases or_some taken with longer | plain
  · obtain ⟨choice, member, rfl, rfl⟩ := takes_oneText longer
    have known : ∀ choice ∈ [("+=", AssignOp.add), ("-=", .sub), ("*=", .mul), ("/=", .div)],
        choice.1 = choice.2.text ∧ choice.2 ≠ .set := by decide
    obtain ⟨same, other⟩ := known choice member
    exact ⟨by rw [same], fun set => absurd set other⟩
  rcases or_some plain with plain | none
  · obtain ⟨_, _, here, onward⟩ := bind_some.mp plain
    obtain ⟨_, _, guarded, read⟩ := bind_some.mp onward
    obtain ⟨holds, rfl⟩ := guardRest_some guarded
    cases read
    refine ⟨List.append_cancel_right (literal_rest here), fun _ head => ?_⟩
    obtain ⟨rest, rfl⟩ := List.head?_eq_some_iff.mp head
    cases holds
  · cases none

theorem sampled_assignOperator : Sampled C (.solid (Stops 0)) "+=".toList assignOperator
    assignOperator (· = ·) (.loose good) := by
  have visible : Place.Visible "+=".toList := by decide
  have starts : FailsAtStart assignOperator :=
    .or failsAtStart_oneText (.or (failsAtStart_literal.bind fun _ =>
      silent_notBefore (fun _ _ => rfl) ()) .fail)
  refine sampled_leaf Place.behind_loose starts ?_ (Place.leads_solid visible fun rest _ =>
    stops_closer (by decide) (by decide) rest) fun position rest _ =>
      ⟨.add, takes_assignOperator .add nofun position⟩
  intro position text op rest _ taken position' rest' related
  obtain ⟨rfl, alone⟩ := assignOperator_text taken
  have alone' (set : op = .set) : rest'.head? ≠ some '=' := by
    intro head
    rcases related.2 with same | blank
    · exact alone set (same.symm.trans head)
    · exact absurd (blank _ head) (by decide)
  have nonempty : op.text.toList ≠ [] := by cases op <;> decide
  refine ⟨⟨⟨bare_assignOperator op rest', stops_assignOperator op alone'⟩, ?_⟩,
    takes_assignOperator op alone' position'⟩
  rw [List.head?_append_of_ne_nil _ nonempty, List.head?_append_of_ne_nil _ nonempty]

theorem viable_assignStatement :
    Viable C .token assignStatement assignStatement Unasked (.loose good) :=
  .spanned_unasked (sampled_expression.toViable.spaced fun _ _ =>
    sampled_assignOperator.spaced fun _ _ =>
    sampled_expression.skip fun _ _ => sampled_ending)

theorem viable_expressionStatement :
    Viable C .token expressionStatement expressionStatement Unasked (.loose good) :=
  .spanned_unasked (sampled_expression.toViable.skip fun _ _ => sampled_ending)

theorem assignStatement_none {cursor after : Cursor} {statement : Statement}
    (read : (expressionStatement cursor).result = some (statement, after)) :
    (assignStatement cursor).result = none := by
  rcases assigned : (assignStatement cursor).result with _ | ⟨value, behind⟩
  · rfl
  obtain ⟨_, assigned, -⟩ := spanned_some.mp assigned
  obtain ⟨_, _, place, assigned⟩ := bind_some.mp assigned
  obtain ⟨_, _, skipped, assigned⟩ := bind_some.mp assigned
  obtain ⟨_, _, operator, -⟩ := bind_some.mp assigned
  obtain ⟨_, read, -⟩ := spanned_some.mp read
  obtain ⟨_, _, place', read⟩ := bind_some.mp read
  cases place.symm.trans place'
  obtain ⟨_, _, skipped', read⟩ := bind_some.mp read
  cases skipped.symm.trans skipped'
  obtain ⟨_, _, semicolon, -⟩ := bind_some.mp read
  have equals : Heads (· ∈ ['+', '-', '*', '/', '=']) (literal "=") :=
    (heads_literal rfl).widen (by rintro _ rfl; decide)
  have operators : Heads (· ∈ ['+', '-', '*', '/', '=']) assignOperator :=
    .or (heads_oneText (by decide)) (.or equals.bind .fail)
  have semicolons : Heads (· = ';') (literal ";") := heads_literal rfl
  cases (operators.none semicolons (by decide) semicolon).symm.trans operator

def Unelse (text : List Char) : Prop := String.ofList (opener text) ≠ "else"

theorem begins_returnStatement : BeginsWith ["return"] returnStatement :=
  (begins_word (by decide)).bind.spanned

theorem begins_bindingStatement : BeginsWith ["let", "const"] bindingStatement :=
  (begins_oneWord (by decide)).bind.spanned

theorem begins_consoleStatement : BeginsWith ["console"] consoleStatement := by
  intro cursor value after read
  obtain ⟨_, read, -⟩ := spanned_some.mp read
  obtain ⟨_, middle, here, onward⟩ := bind_some.mp read
  obtain ⟨_, _, skipped, onward⟩ := bind_some.mp onward
  obtain ⟨_, _, dot, -⟩ := bind_some.mp onward
  have word : IsWord "console".toList := by decide
  have dots : Heads (· = '.') (literal ".") := heads_literal rfl
  have ends : ∀ c ∈ middle.rest.head?, wordPart.contains c = false := by
    intro c head
    cases skipped
    rcases head_before (dots _ _ _ dot) c head with blank | rfl | rfl
    · exact not_wordPart_blank c blank
    · decide
    · decide
  rw [literal_rest here, opener_word word ends, String.ofList_toList]
  exact List.mem_singleton_self _

theorem begins_loopStatement {block : Parser Block} : BeginsWith ["for"] (loopStatement block) :=
  (begins_word (by decide)).bind.spanned

theorem begins_statementOver {block : Parser Block} {conditional : Parser Conditional}
    (braces : BeginsWith ["\x7b"] block) (ifs : BeginsWith ["if"] conditional) :
    BeginsWithout ["else", "\x7d"] (statementOver block conditional) := by
  have expressions : BeginsWithout ["else", "\x7d"] expression :=
    begins_expression.fewer (by decide)
  exact .or (begins_returnStatement.without (by decide))
    (.or (begins_bindingStatement.without (by decide))
    (.or (ifs.without (by decide)).bind
    (.or (begins_loopStatement.without (by decide))
    (.or (begins_consoleStatement.without (by decide))
    (.or (braces.without (by decide)).bind
    (.or expressions.bind.spanned (.or expressions.bind.spanned .fail)))))))

theorem stops_brace (begins : String.ofList (opener text) ∈ ["\x7b"]) : Stops 0 text := by
  have opens : opener text = ['\x7b'] := String.ofList_injective (List.mem_singleton.mp begins)
  have head : text.head? = some '\x7b' := by rw [← head_opener, opens]; rfl
  obtain ⟨rest, rfl⟩ := List.head?_eq_some_iff.mp head
  have closer : "\x7b" ∈ closers := by decide
  exact stops_closer closer (by decide) rest

abbrev SampledBlock (C : Comparison) (sample : List Char) (block block' : Parser Block) : Prop :=
  ∀ good, Sampled C .token sample block block' Unasked (.loose good)

section
variable {block block' : Parser Block} {conditional conditional' : Parser Conditional}
  {sample : List Char} (blocks : SampledBlock C sample block block')
  (conditionals : Viable C .token conditional conditional' Unasked (.loose Unelse))
  (braces : BeginsWith ["\x7b"] block') (ifs : BeginsWith ["if"] conditional')

section
include blocks braces

theorem sampled_body : Sampled C (.solid (Stops 0)) sample block block' Unasked (.loose good) :=
  (blocks good).opening fun taken _ => stops_brace (braces _ _ _ taken)

theorem viable_loopStatement :
    Viable C .token (loopStatement block) (loopStatement block') Unasked (.loose good) := by
  have visible : Place.Visible "for".toList ∧ Place.Visible ":".toList ∧
      Place.Visible "in".toList ∧ Place.Visible "..".toList := by decide
  have body : Sampled C (.solid (Stops 0)) sample block block' Unasked (.loose good) :=
    sampled_body blocks braces
  exact .spanned_unasked (
    (sampled_word visible.1).toViable.spaced fun _ _ =>
    sampled_identifier.spaced fun _ _ =>
    (sampled_fixed visible.2.1 Place.behind_loose).spaced fun _ _ =>
    sampled_type.spaced fun _ _ =>
    (sampled_word visible.2.2.1).spaced fun _ _ =>
    sampled_expression.spaced fun _ _ =>
    (sampled_closer (by decide) (by decide) visible.2.2.2).spaced fun _ _ =>
    sampled_expression.spaced fun _ _ =>
    body.skip fun _ _ => .pure trivial (.refl _))

end

include blocks conditionals braces ifs

theorem viable_statementOver : Viable C .token (statementOver block conditional)
    (statementOver block' conditional') Unasked (.loose Unelse) := by
  have last {openers : List String} (among : ∀ text ∈ openers, text ∈ statementOpeners) :
      Later C .token openers (firstOf [assignStatement, expressionStatement])
        (firstOf [assignStatement, expressionStatement]) (.loose Unelse) := by
    have begins : BeginsWithout openers expression := begins_expression.fewer among
    refine ⟨viable_assignStatement.or (viable_expressionStatement.or .fail nofun)
      fun _ taken _ => ?_, .or begins.bind.spanned (.or begins.bind.spanned .fail)⟩
    exact (or_some taken).elim assignStatement_none nofun
  have all : Later C .token [] (statementOver block conditional)
      (statementOver block' conditional') (.loose Unelse) :=
    .or viable_returnStatement begins_returnStatement (by decide)
    (.or viable_bindingStatement begins_bindingStatement (by decide)
    (.or (conditionals.skip fun _ _ => .pure trivial (.refl _)) ifs.bind (by decide)
    (.or (viable_loopStatement blocks braces) begins_loopStatement (by decide)
    (.or viable_consoleStatement begins_consoleStatement (by decide)
    (.or ((blocks _).map fun _ _ _ => trivial).toViable braces.bind (by decide)
      (last (by decide)))))))
  exact all.viable

theorem sampled_otherwiseOver : Sampled C (.loose fun _ => True)
    ("\n".toList ++ ("else".toList ++ ("\n".toList ++ sample))) (otherwiseOver block conditional)
    (otherwiseOver block' conditional') Unasked (.loose Unelse) := by
  have visible : Place.Visible "else".toList := by decide
  have either : Sampled C .token sample (firstOf [do return Otherwise.chain (← conditional),
      do return .block (← block)]) (firstOf [do return Otherwise.chain (← conditional'),
      do return .block (← block')]) Unasked (.loose Unelse) := by
    refine .or_second (conditionals.skip fun _ _ => .pure trivial (.refl _))
      ((blocks _).map fun _ _ _ => trivial).or_fail fun _ taken _ => ?_
    exact ifs.bind.told (.or (braces.bind.without (by decide)) .fail) taken
  exact sampled_blanks.skip fun _ _ => (sampled_word visible).spaced fun _ _ => either

theorem viable_conditionalOver : Viable C .token (conditionalOver block conditional)
    (conditionalOver block' conditional') Unasked (.loose Unelse) := by
  have visible : Place.Visible "if".toList := by decide
  have elses : BeginsWith ["else"] (word "else") := begins_word (by decide)
  have otherwise : Sampled C (.loose fun _ => True) [] (optional (otherwiseOver block conditional))
      (optional (otherwiseOver block' conditional')) Unasked (.loose Unelse) :=
    .optional (sampled_otherwiseOver blocks conditionals braces ifs).toViable
      (Place.within_loose fun _ _ => trivial) (rejects_behind_blanks fun text known =>
        (elses.rejects fun begins => known (List.mem_singleton.mp begins)).bind)
  exact .spanned_unasked (
    (sampled_word visible).toViable.spaced fun _ _ =>
    sampled_expression.spaced fun _ _ =>
    (sampled_body blocks braces).skip fun _ _ =>
    otherwise.skip fun _ _ => .pure trivial (.refl _))

end

theorem sampled_blockOver {statement statement' : Parser Statement} [Advances statement']
    (consumes : Consumes statement') (begins : BeginsWithout ["else", "\x7d"] statement')
    (statements : Viable C .token statement statement' Unasked (.loose Unelse)) :
    Sampled C .token ("\x7b".toList ++ ("\n".toList ++ ([] ++ ("\x7d".toList ++ []))))
      (blockOver statement) (blockOver statement') Unasked (.loose good) := by
  have visible : Place.Visible "\x7b".toList ∧ Place.Visible "\x7d".toList := by decide
  have each : Viable C (.solid Unelse) (do
      let statement ← statement
      blanks
      return statement) (do
      let statement ← statement'
      blanks
      return statement) (fun _ _ => () = ()) (.solid Unelse) := by
    have one : Viable C (.solid Unelse) statement statement' Unasked (.loose Unelse) :=
      statements.opening fun taken _ same => begins _ _ _ taken (same ▸ List.mem_cons_self ..)
    exact one.spaced fun _ _ => .pure rfl (.refl _)
  have ends (text : List Char) (closes : Closed "\x7d" text) : Unelse text := by
    rw [Unelse, closes.opener rfl (by decide)]
    decide
  have stops : BeginsWithout ["\x7d"] statement' := begins.fewer (by decide)
  have all : Sampled C (.solid Unelse) [] _ _ _ (.solid (Closed "\x7d")) :=
    .many consumes.bind each (Place.within_solid ends) fun position rest allows =>
      (stops.rejects_closed rfl (by decide) rest allows.2).bind position
  exact .spanned_unasked ((sampled_fixed visible.1 Place.behind_loose).spaced fun _ _ =>
    all.skip fun _ _ =>
    (sampled_close visible.2 Place.behind_loose).skip fun _ _ => .pure trivial (.refl _))

def conditional : Parser Conditional := bounded conditionalWithin

abbrev statement : Parser Statement := statementOver block conditional

instance advances_conditional : Advances conditional :=
  inferInstanceAs (Advances (bounded conditionalWithin))

theorem consumes_statement : Consumes statement :=
  consumes_statementOver (fun cursor => (consumes_nested cursor.bound).1 cursor)
    fun cursor => (consumes_nested cursor.bound).2 cursor

section
variable {m depth : Nat} (bound : List Char)

theorem steps_blockWithin : Steps C m bound.length (depth + 1) block (blockWithin bound)
    (C.Agree Block.move) := by
  have nested (bound' : List Char) : Steps C bound'.length bound.length (depth + 1)
      (blockWithin bound') (blockWithin bound) (C.Agree Block.move) :=
    ((lockstep_nested bound' bound).1 (depth + 1)).imp (fun _ _ => id)
      fun _ _ => Comparison.Closed.loose
  exact fun here there _ below => nested here.bound here there (Nat.lt_succ_self _) below

theorem steps_conditionalWithin : Steps C m bound.length (depth + 1) conditional
    (conditionalWithin bound) (C.Agree Conditional.move) :=
  fun here there _ below =>
    (lockstep_nested here.bound bound).2 depth here there (Nat.lt_succ_self _) below

end

theorem result_block (cursor : Cursor) :
    (blockOver statement cursor).result = (block cursor).result := by
  have statements : Steps .itself cursor.rest.length.succ cursor.rest.length 1 statement
      (statementOver (blockWithin cursor.rest) (conditionalWithin cursor.rest))
      (Comparison.itself.Agree Statement.move) :=
    steps_statementOver (steps_blockWithin cursor.rest) (steps_conditionalWithin cursor.rest)
  have consumes := consumes_nested cursor.rest
  exact result_eq_of_lockstep (lockstep_blockOver consumes_statement
    (consumes_statementOver consumes.1 consumes.2) statements) Block.move_id (.same trivial)
    (Nat.lt_succ_of_lt (Nat.lt_succ_self _)) (Nat.lt_succ_self _)

theorem result_conditional (cursor : Cursor) :
    (conditionalOver block conditional cursor).result = (conditional cursor).result :=
  result_eq_of_steps 1 (steps_conditionalOver (steps_blockWithin cursor.rest)
    (steps_conditionalWithin cursor.rest)) Conditional.move_id (Nat.lt_succ_self _)
    (Nat.lt_succ_self _)

theorem begins_block : BeginsWith ["\x7b"] block := by
  intro cursor value after read
  rw [← result_block] at read
  exact (begins_mark rfl (by decide)).bind.spanned _ _ _ read

theorem begins_conditional : BeginsWith ["if"] conditional := by
  intro cursor value after read
  rw [← result_conditional] at read
  exact (begins_word (by decide)).bind.spanned _ _ _ read

theorem begins_statement : BeginsWithout ["else", "\x7d"] statement :=
  begins_statementOver begins_block begins_conditional

theorem samples_block : Samples .token "\x7b\n\x7d".toList block (.loose good) := by
  have nothing : Sampled .itself .token "\x7b\n\x7d".toList (blockOver fail) (blockOver statement)
      Unasked (.loose good) := sampled_blockOver consumes_statement begins_statement .fail
  exact (nothing.congr result_block).samples

theorem viable_nested (bound : List Char) :
    (∀ good, Viable C .token (blockWithin bound) block Unasked (.loose good)) ∧
    Viable C .token (conditionalWithin bound) conditional Unasked (.loose Unelse) := by
  induction bound with
  | nil => exact ⟨fun _ => .fail, .fail⟩
  | cons _ bound ih =>
    obtain ⟨blocks, conditionals⟩ := ih
    have blocks : SampledBlock C "\x7b\n\x7d".toList (blockWithin bound) block :=
      fun good => ⟨blocks good, samples_block⟩
    have statements := viable_statementOver blocks conditionals begins_block begins_conditional
    have conditionals := viable_conditionalOver blocks conditionals begins_block begins_conditional
    rw [blockWithin, conditionalWithin]
    exact ⟨fun good => (sampled_blockOver consumes_statement begins_statement statements).toViable.congr
      result_block, conditionals.congr result_conditional⟩

theorem sampled_block : Sampled C .token "\x7b\n\x7d".toList block block Unasked (.loose good) :=
  .bounded fun bound => ⟨(viable_nested bound).1 good, samples_block⟩

end LeoFront.Grammar

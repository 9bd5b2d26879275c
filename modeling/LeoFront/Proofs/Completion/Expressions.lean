import LeoFront.Proofs.Completion.Operators
import LeoFront.Proofs.Lexical.Expressions
import LeoFront.Proofs.Spacing.Respacing

namespace LeoFront.Grammar
open LeoFront.Parser
open Text (units16)
variable {α β : Type} {C : Comparison} {P Q : Place} {p q : Parser α}
  {good better : List Char → Prop} {text rest : List Char} {sample : List Char}

def Unaddressed (word : List Char) : Prop := ¬ StartsAddress (String.ofList word)

noncomputable def primaryApart (expression : Parser Expression) : Parser Expression :=
  firstOf [
    spanned booleanLiteral,
    spanned addressLiteral,
    spanned numberLiteral,
    spanned stringLiteral,
    do
      let name ← nameWhere Unaddressed
      return .var name.name name.span,
    do
      literal "("
      blanks
      let inner ← expression
      blanks
      literal ")"
      return inner]

theorem primary_eq (expression : Parser Expression) :
    primary expression = primaryApart expression := by
  funext cursor
  refine or_congr_at fun _ => or_congr_at fun noAddress => or_congr_at fun _ =>
    or_congr_at fun _ => or_congr_left (bind_congr_at (nameWhere_eq ?_).symm)
  intro starts
  obtain ⟨c, more, same, part⟩ := starts
  rw [String.toList_ofList] at same
  obtain ⟨rest, whole, -⟩ := leadingWord_ends (by rw [same]; simp)
  have written : cursor.rest = (String.ofList (leadingWord cursor.rest)).toList ++
      (Cursor.mk rest .start).rest := by rwa [String.toList_ofList]
  refine not_startsAddress written noAddress ⟨c, more, ?_, part⟩
  rwa [String.toList_ofList]

theorem prefix_word {word : List Char} (begins : word <+: text ++ rest)
    (parts : ∀ c ∈ word, wordPart.contains c = true)
    (ends : ∀ c ∈ rest.head?, wordPart.contains c = false) : word <+: text := by
  rcases List.prefix_or_prefix_of_prefix begins (List.prefix_append text rest) with shorter | longer
  · exact shorter
  · obtain ⟨more, rfl⟩ := longer
    cases more with
    | nil => simp
    | cons c more =>
      have further : c :: more <+: rest := by simpa using begins
      obtain ⟨behind, rfl⟩ := further
      have outside := ends c rfl
      rw [parts c (by simp)] at outside
      cases outside

theorem addressLiteral_unaddressed {position : Position} (named : NamedBy Unaddressed text)
    (ends : ∀ c ∈ rest.head?, wordPart.contains c = false) :
    (addressLiteral ⟨text ++ rest, position⟩).result = none := by
  rcases read : (addressLiteral ⟨text ++ rest, position⟩).result with _ | ⟨value, after⟩
  · rfl
  · obtain ⟨_, _, here, read⟩ := bind_some.mp read
    obtain ⟨run, _, onward, -⟩ := bind_some.mp read
    obtain ⟨c, _, first, -⟩ := bind_some.mp onward
    have part := oneOf_contains first
    have written : text ++ rest = "aleo1".toList ++ _ := literal_rest here
    rw [oneOf_rest first] at written
    have letters : ∀ c ∈ "aleo1".toList, wordPart.contains c = true := by decide
    have begins : "aleo1".toList ++ [c] <+: text := by
      have here : "aleo1".toList ++ [c] <+: text ++ rest := by
        rw [written, List.append_cons]
        exact List.prefix_append _ _
      refine prefix_word here (fun d member => ?_) ends
      rcases List.mem_append.mp member with letter | last
      · exact letters d letter
      · rw [List.mem_singleton.mp last]
        exact addressPart_part part
    obtain ⟨more, rfl⟩ := begins
    refine absurd ⟨c, more, ?_, part⟩ named.holds
    rw [String.toList_ofList, List.append_assoc]
    rfl

theorem booleanLiteral_named {condition : List Char → Prop} {position : Position}
    (named : NamedBy condition text) (ends : ∀ c ∈ rest.head?, wordPart.contains c = false) :
    (booleanLiteral ⟨text ++ rest, position⟩).result = none := by
  rcases read : (booleanLiteral ⟨text ++ rest, position⟩).result with _ | ⟨value, after⟩
  · rfl
  · obtain ⟨word, whole, -, parts, ends'⟩ := readsWord_booleanLiteral _ _ _ read
    obtain ⟨_, _, here, read⟩ := bind_some.mp read
    cases read
    obtain ⟨choice, member, -, written⟩ := oneWord_rest here
    obtain rfl := List.append_cancel_right (whole.symm.trans written)
    have same := word_unique whole named.word.run.2 parts ends ends'
    have keyword : ∀ choice ∈ [("true", "true"), ("false", "false")], choice.1 ∈ keywords := by
      decide
    refine absurd (keyword choice member) ?_
    rw [← String.ofList_toList (s := choice.1), ← same]
    exact named.free

theorem stops_parenthesis (closes : Closed ")" text) : Stops 0 text := by
  obtain ⟨rest, rfl⟩ := closes
  exact stops_closer (by decide : ")" ∈ closers) (by decide) rest

instance : Nonempty UnaryOp := ⟨.not⟩

instance : Nonempty (Suffix × Position) := ⟨(.call [], .start)⟩

def further (inner : Parser Expression) : Parser (Suffix × Position) := do
  blanks
  suffix inner

def suffixedWithin (inner : Parser Expression) (bound : List Char) : Parser Expression := do
  let target ← primary inner
  let suffixes ← manyWithin (further inner) bound
  return suffixes.foldl Suffix.apply target

section
variable {inner inner' : Parser Expression}

instance advances_further [Advances inner] : Advances (further inner) := by
  unfold further
  infer_instance

theorem consumes_further [Advances inner] : Consumes (further inner) :=
  .guarded fun _ => consumes_suffix

theorem rejects_further (position : Position) (rest : List Char)
    (allows : (Place.loose (Stops 6)).Allows rest) :
    (further inner ⟨rest, position⟩).result = none :=
  rejects_behind_blanks (fun _ (stops : Stops 6 _) => stops.1 inner) position rest allows

noncomputable def variableApart : Parser Expression := do
  let name ← nameWhere Unaddressed
  return .var name.name name.span

def wrapped (inner : Parser Expression) : Parser Expression := do
  literal "("
  blanks
  let inner ← inner
  blanks
  literal ")"
  return inner

abbrev parenthesised (sample : List Char) : List Char :=
  "(".toList ++ (['\n'] ++ (sample ++ (['\n'] ++ (")".toList ++ []))))

theorem heads_wrapped : Heads (· = '(') (wrapped inner) := by
  have opens : Heads (· = '(') (literal "(") := heads_literal rfl
  exact opens.bind

theorem heads_stringLiteral : Heads (· = '"') stringLiteral := by
  have quotes : Heads (· = '"') (literal "\"") := heads_literal rfl
  exact quotes.bind

theorem heads_numberLiteral : Heads (digit.contains · = true) numberLiteral := heads_oneOf.bind.bind

theorem heads_variableApart : Heads (wordStart.contains · = true) variableApart :=
  heads_nameWhere.bind

-- the alternatives of a primary expression from one of them on

noncomputable abbrev fromNames (inner : Parser Expression) : Parser Expression :=
  variableApart.or ((wrapped inner).or fail)

noncomputable abbrev fromStrings (inner : Parser Expression) : Parser Expression :=
  (spanned stringLiteral).or (fromNames inner)

noncomputable abbrev fromNumbers (inner : Parser Expression) : Parser Expression :=
  (spanned numberLiteral).or (fromStrings inner)

theorem heads_fromNames :
    Heads (fun c => wordStart.contains c = true ∨ c = '(') (fromNames inner) :=
  .or (heads_variableApart.widen fun _ => .inl) (.or (heads_wrapped.widen fun _ => .inr) .fail)

theorem heads_fromStrings :
    Heads (fun c => c = '"' ∨ wordStart.contains c = true ∨ c = '(') (fromStrings inner) :=
  .or (heads_stringLiteral.spanned.widen fun _ => .inl) (heads_fromNames.widen fun _ => .inr)

theorem unlike_word {position : Position} {value : Expression}
    (taken : Takes (fromNumbers inner) position text value rest) :
    (∀ c ∈ (text ++ rest).head?, wordStart.contains c = false) ∨
      NamedBy Unaddressed text ∧ ∀ c ∈ rest.head?, wordPart.contains c = false := by
  have outside {p : Parser Expression} {heads : Char → Prop} (first : Heads heads p)
      (apart : ∀ c, heads c → wordStart.contains c = false)
      (read : Takes p position text value rest) :
      ∀ c ∈ (text ++ rest).head?, wordStart.contains c = false := by
    intro c head
    obtain ⟨c', head', known⟩ := first _ _ _ read
    rw [Option.mem_unique head head']
    exact apart c' known
  rcases or_some taken with number | taken
  · refine .inl (outside heads_numberLiteral.spanned (fun c member => ?_) number)
    by_contra start
    rw [wordStart_not_digit (by simpa using start)] at member
    cases member
  rcases or_some taken with string | taken
  · refine .inl (outside heads_stringLiteral.spanned ?_ string)
    rintro _ rfl
    decide
  rcases or_some taken with name | taken
  · obtain ⟨_, here, -⟩ := takes_map name
    obtain ⟨named, ends, -⟩ := named_of_takes here
    exact .inr ⟨named, ends⟩
  rcases or_some taken with paren | none
  · refine .inl (outside heads_wrapped ?_ paren)
    rintro _ rfl
    decide
  · cases none

theorem heads_addressLiteral : Heads (· = 'a') (spanned addressLiteral) := by
  have begins : Heads (· = 'a') (literal "aleo1") := heads_literal rfl
  exact begins.bind.spanned

theorem heads_booleanLiteral : Heads (· ∈ ['t', 'f']) (spanned booleanLiteral) := by
  have words : Heads (· ∈ ['t', 'f']) (oneText [("true", "true"), ("false", "false")]) :=
    heads_oneText (by decide)
  exact words.bind.bind.spanned

theorem addressLiteral_fails {position : Position} {value : Expression}
    (taken : Takes (fromNumbers inner) position text value rest) :
    (spanned addressLiteral ⟨text ++ rest, position⟩).result = none := by
  rcases unlike_word taken with outside | ⟨named, ends⟩
  · refine heads_addressLiteral.outside (fun c head same => ?_) position
    have outside := outside c head
    rw [same] at outside
    cases outside
  · exact Rejects.spanned (fun _ => addressLiteral_unaddressed named ends) position

theorem booleanLiteral_fails {position : Position} {value : Expression}
    (taken : Takes ((spanned addressLiteral).or (fromNumbers inner)) position text value rest) :
    (spanned booleanLiteral ⟨text ++ rest, position⟩).result = none := by
  rcases or_some taken with taken | taken
  · refine heads_booleanLiteral.none heads_addressLiteral ?_ taken
    rintro _ member rfl
    revert member
    decide
  rcases unlike_word taken with outside | ⟨named, ends⟩
  · refine heads_booleanLiteral.outside (fun c head member => ?_) position
    have starts : ∀ c ∈ ['t', 'f'], wordStart.contains c = true := by decide
    have outside := outside c head
    rw [starts c member] at outside
    cases outside
  · exact Rejects.spanned (fun _ => booleanLiteral_named named ends) position

theorem sampled_variableApart : Sampled C .token ['a'] variableApart variableApart
    (C.Agree Expression.move) (.loose good) := by
  have unaddressed : NamedBy Unaddressed ['a'] := by
    refine ⟨by decide, by decide, ?_⟩
    rintro ⟨c, rest, same, -⟩
    cases same
  exact (sampled_nameWhere unaddressed).map fun _ _ =>
    congrArg fun name : Identifier => Expression.var name.name name.span

variable (items : Sampled C .token sample inner inner' (C.Agree Expression.move) (.loose (Stops 0)))
include items

theorem sampled_wrapped : Sampled C .token (parenthesised sample) (wrapped inner) (wrapped inner')
    (C.Agree Expression.move) (.loose good) := by
  have opening : Sampled C .token "(".toList (literal "(") (literal "(") (· = ·)
      (.loose fun _ => True) := sampled_fixed (by decide) Place.behind_loose
  have closing : Sampled C (.solid (Stops 0)) ")".toList (literal ")") (literal ")") (· = ·)
      (.loose good) := sampled_literal (Place.leads_solid (by decide) fun rest _ =>
    stops_parenthesis (List.prefix_append _ rest)) Place.behind_loose
  exact opening.spaced fun _ _ => items.bind fun _ _ =>
    sampled_blanks.skip fun _ _ => closing.skip fun _ _ => .pure id (.refl _)

theorem viable_fromNames : Viable C .token (fromNames inner) (fromNames inner')
    (C.Agree Expression.move) (.loose good) := by
  refine sampled_variableApart.toViable.or (sampled_wrapped items).or_fail.toViable
    fun _ taken _ => heads_variableApart.none (heads_wrapped.or .fail) ?_ taken
  rintro c start rfl
  cases start

theorem viable_fromStrings : Viable C .token (fromStrings inner) (fromStrings inner')
    (C.Agree Expression.move) (.loose good) := by
  refine sampled_stringLiteral.spanned.toViable.or (viable_fromNames items)
    fun _ taken _ => heads_stringLiteral.spanned.none heads_fromNames ?_ taken
  rintro _ rfl
  decide

theorem viable_fromNumbers : Viable C .token (fromNumbers inner) (fromNumbers inner')
    (C.Agree Expression.move) (.loose good) := by
  refine sampled_numberLiteral.spanned.toViable.or (viable_fromStrings items)
    fun _ taken _ => heads_numberLiteral.spanned.none heads_fromStrings ?_ taken
  rintro c member (rfl | start | rfl)
  · cases member
  · rw [wordStart_not_digit start] at member
    cases member
  · cases member

theorem sampled_primary : Sampled C .token "true".toList (primary inner) (primary inner')
    (C.Agree Expression.move) (.loose good) := by
  rw [primary_eq, primary_eq]
  have addresses : Viable C .token ((spanned addressLiteral).or (fromNumbers inner))
      ((spanned addressLiteral).or (fromNumbers inner')) (C.Agree Expression.move) (.loose good) :=
    sampled_addressLiteral.spanned.toViable.or (viable_fromNumbers items)
      fun _ taken _ => addressLiteral_fails taken
  exact sampled_booleanLiteral.spanned.or addresses fun _ taken _ => booleanLiteral_fails taken

theorem sampled_arguments (first : Heads Calm inner') [Advances inner']
    {next next' : List Expression → Parser β} {agree' : β → β → Prop} {sample' : List Char}
    (onward : ∀ values values', Sampled C (.loose fun _ => True) sample' (next values) (next' values')
      (fun made made' => C.Agree Expression.moveEach values values' → agree' made made') Q) :
    Sampled C .token (sample ++ (['\n'] ++ (")".toList ++ sample'))) (do
      let arguments ← arguments inner
      blanks
      literal ")"
      next arguments) (do
      let arguments ← arguments inner'
      blanks
      literal ")"
      next' arguments) agree' Q := by
  have other {text : List Char} (closes : Closed ")" text) : text.head? = some ')' := by
    obtain ⟨rest, rfl⟩ := closes
    rfl
  have list : Sampled C .token sample (separated inner) (separated inner')
      (C.Agree fun shift => List.map (Expression.move shift)) (.loose (Closed ")")) :=
    sampled_separated items (fun _ => stops_parenthesis)
      (stops_closer (by decide : "," ∈ closers) (by decide))
      fun text closes => (rejects_comma (by rw [other closes]; decide)).bind
  refine .closed (by decide) Place.behind_loose list (fun text closes => ?_) rfl fun values values' =>
    (onward values values').imp (fun made made' known same => known ?_) (.refl _) (.refl Q)
  · refine (first.outside fun c head => ?_).bind
    rw [other closes] at head
    cases head
    decide
  · simpa only [Comparison.Agree, Expression.moveEach_eq_map] using same

theorem sampled_suffix (first : Heads Calm inner') [Advances inner'] :
    Sampled C .token (parenthesised sample) (suffix inner) (suffix inner') (C.Agree moveEnded)
      (.loose fun _ => True) := by
  have visible : Place.Visible "(".toList ∧ Place.Visible ".".toList := by decide
  have opens : Heads (· = '(') (literal "(") := heads_literal rfl
  have dot : Heads (· = '.') (literal ".") := heads_literal rfl
  refine .or (.spanned ?_) (.or (.spanned ?_) .fail nofun) fun _ taken _ =>
    opens.bind.spanned.none (dot.bind.spanned.or .fail) ?_ taken
  · refine (sampled_fixed visible.1 Place.behind_loose).spaced fun _ _ =>
      sampled_arguments items first fun values values' =>
        .pure (fun same span span' spans => ?_) (.refl _)
    exact Prod.ext (congrArg Suffix.call same) (congrArg Span.stop spans)
  · refine (sampled_fixed visible.2 Place.behind_loose).toViable.spaced fun _ _ =>
      sampled_identifier.bind fun member member' =>
        .pure (fun same span span' spans => ?_) (.refl _)
    exact Prod.ext (congrArg Suffix.access same) (congrArg Span.stop spans)
  · rintro _ rfl
    decide

theorem viable_further (first : Heads Calm inner') [Advances inner'] :
    Viable C (.loose fun _ => True) (further inner) (further inner')
      (fun value value' => moveEnded C.left value = moveEnded C.right value')
      (.loose fun _ => True) :=
  sampled_blanks.toViable.skip fun _ _ => sampled_suffix items first

theorem sampled_suffixed (first : Heads Calm inner') [Advances inner'] :
    Sampled C .token "true".toList (suffixed inner) (suffixed inner') (C.Agree Expression.move)
      (.loose (Stops 6)) := by
  have target : Sampled C .token "true".toList (primary inner) (primary inner')
      (C.Agree Expression.move) (.loose fun _ => True) := sampled_primary items
  refine .cast (target.bind fun target target' => ?_) (List.append_nil _)
  exact (Sampled.many consumes_further (viable_further items first)
    (Place.within_loose fun _ _ => trivial) rejects_further).map fun _ _ each same =>
      agree_foldl_apply same each

theorem sampled_suffixedWithin (first : Heads Calm inner') [Advances inner'] (bound : List Char) :
    Sampled C .token "true".toList (suffixedWithin inner bound) (suffixed inner')
      (C.Agree Expression.move) (.loose (Stops 6)) := by
  have target : Sampled C .token "true".toList (primary inner) (primary inner')
      (C.Agree Expression.move) (.loose fun _ => True) := sampled_primary items
  refine .cast (target.bind fun target target' => ?_) (List.append_nil _)
  exact (Sampled.manyWithin consumes_further (viable_further items first)
    (Place.within_loose fun _ _ => trivial) rejects_further bound).map fun _ _ each same =>
      agree_foldl_apply same each

end

theorem rest_unique {read read' rest' : List Char} (same : read ++ rest = read' ++ rest')
    (units : units16 read = units16 read') : rest = rest' := by
  have shorter {read more : List Char} (units : units16 read = units16 (read ++ more)) :
      more = [] := by
    by_contra nonempty
    have pos := units16_pos nonempty
    rw [Text.units16_append] at units
    omega
  rcases List.append_eq_append_iff.mp same with ⟨more, rfl, rfl⟩ | ⟨more, rfl, rfl⟩
  · rw [shorter units, List.nil_append]
  · rw [shorter units.symm, List.nil_append]

def Comparison.itself : Comparison :=
  { equal with same := True, after := fun _ _ => True, after_same := fun _ _ => trivial }

theorem result_eq_of_lockstep {m n : Nat} {before behind : List Char → List Char → Prop}
    {move : (Position → Position) → α → α} [Advances p] [Advances q]
    (lockstep : Lockstep .itself m n before p q (Comparison.itself.Agree move) behind)
    (stays : ∀ value, move id value = value) {cursor : Cursor}
    (here : before cursor.rest cursor.rest) (below : cursor.rest.length < m)
    (below' : cursor.rest.length < n) : (p cursor).result = (q cursor).result := by
  have both := lockstep cursor cursor below below' ⟨here, rfl⟩
  rcases read : (p cursor).result with _ | ⟨value, after⟩ <;>
    rcases read' : (q cursor).result with _ | ⟨value', after'⟩ <;>
    rw [read, read'] at both
  · cases both
  · cases both
  · obtain ⟨same, -, places⟩ := Option.rel_some_some.mp both
    have values : value = value' := (stays value).symm.trans (same.trans (stays value'))
    obtain ⟨text, whole, moved⟩ := Advances.reaches _ _ _ read
    obtain ⟨text', whole', moved'⟩ := Advances.reaches _ _ _ read'
    have positions : after.position = after'.position := places
    have units := congrArg Position.offset (moved.symm.trans (positions.trans moved'))
    rw [Position.after_offset, Position.after_offset] at units
    have rests := rest_unique (whole.symm.trans whole') (by omega)
    obtain ⟨rest, position⟩ := after
    obtain ⟨rest', position'⟩ := after'
    cases values
    cases rests
    cases positions
    rfl

theorem result_eq_of_steps {m n : Nat} {move : (Position → Position) → α → α} [Advances p] [Advances q]
    (depth : Nat) (steps : Steps .itself m n depth p q (Comparison.itself.Agree move))
    (stays : ∀ value, move id value = value) {cursor : Cursor} (below : cursor.rest.length < m)
    (below' : cursor.rest.length < n) : (p cursor).result = (q cursor).result :=
  result_eq_of_lockstep steps stays (.same trivial) below below'

def unary : Parser Expression := bounded unaryWithin

instance advances_unary : Advances unary := inferInstanceAs (Advances (bounded unaryWithin))

instance advances_unaryOver {inner : Parser Expression} [Advances inner] :
    Advances (unaryOver inner) := by
  unfold unaryOver
  infer_instance

theorem steps_unary {m depth : Nat} (bound : List Char) :
    Steps C m bound.length depth unary (unaryWithin bound) (C.Agree Expression.move) :=
  fun here there _ below =>
    steps_unaryWithin here.bound bound here there (Nat.lt_succ_self _) below

theorem result_unary (cursor : Cursor) : (unaryOver unary cursor).result = (unary cursor).result :=
  result_eq_of_steps 0 (steps_unaryOver (steps_unary cursor.rest))
    Expression.move_id (Nat.lt_succ_self _) (Nat.lt_succ_self _)

theorem result_expression (cursor : Cursor) :
    (expressionOver unary cursor).result = (expression cursor).result :=
  result_eq_of_steps 0 (steps_expressionOver (steps_unary cursor.bound))
    Expression.move_id (Nat.lt_succ_self _) (Nat.lt_succ_self _)

abbrev Unsigned (c : Char) : Prop := wordPart.contains c = true ∨ c ∈ ['"', '(']

theorem calm_of_unsigned (c : Char) (unsigned : Unsigned c) : Calm c := by
  have calm : ∀ c ∈ ['"', '('], Calm c := by decide
  exact unsigned.elim .inl (calm c)

theorem heads_primary (inner : Parser Expression) : Heads Unsigned (primary inner) := by
  have begins : Heads (· = 'a') (literal "aleo1") := heads_literal rfl
  have boolean : Heads Unsigned (oneText [("true", "true"), ("false", "false")]) :=
    heads_oneText (by decide)
  have name : Heads (wordStart.contains · = true) variableName := heads_identifier.bind
  refine .or boolean.bind.bind.spanned (.or (begins.bind.spanned.widen ?_)
    (.or (heads_numberLiteral.spanned.widen fun c => .inl ∘ digit_part)
    (.or (heads_stringLiteral.spanned.widen ?_) (.or (name.widen fun c => .inl ∘ wordPart_of_wordStart)
    (.or (heads_wrapped.widen ?_) .fail)))))
  all_goals
    · rintro _ rfl
      decide

theorem heads_unaryOver (inner : Parser Expression) : Heads Calm (unaryOver inner) := by
  have sign : Heads Calm (oneText [("!", UnaryOp.not), ("-", .negate)]) := heads_oneText (by decide)
  exact .or sign.bind.spanned (.or ((heads_primary _).widen calm_of_unsigned).bind .fail)

theorem heads_unary : Heads Calm unary := by
  intro cursor value after read
  rw [← result_unary] at read
  exact heads_unaryOver unary _ _ _ read

theorem heads_expression : Heads Calm expression := by
  intro cursor value after read
  rw [← result_expression] at read
  exact begins_chains heads_unary 6 _ _ _ read

theorem samples_unary : Samples .token "true".toList unary (.loose (Stops 6)) := by
  intro rest fresh
  obtain ⟨begins, reads⟩ := (sampled_booleanLiteral (C := .itself)).spanned.samples rest fresh
  refine ⟨begins, fun position => ?_⟩
  obtain ⟨value, taken⟩ := reads position
  have nothing (position : Position) :
      Takes (many (further (expressionOver unary))) position [] [] rest :=
    many_eq consumes_further (.done _) (rejects_further position rest fresh.1)
  have target : Takes (primary (expressionOver unary)) position "true".toList value rest :=
    .or_left taken
  have read : Takes (unaryOver unary) position "true".toList value rest :=
    .or_right rfl (.or_left (target.ended ((nothing _).ended takes_pure)))
  exact ⟨value, (result_unary _).symm.trans read⟩

theorem sampled_unaryWithin (bound : List Char) :
    Sampled C .token "true".toList (unaryWithin bound) unary (C.Agree Expression.move)
      (.loose (Stops 6)) := by
  refine ⟨?_, samples_unary⟩
  induction bound with
  | nil => exact .fail
  | cons _ bound ih =>
    have operands : Sampled C .token "true".toList (unaryWithin bound) unary
        (C.Agree Expression.move) (.loose (Stops 6)) := ⟨ih, samples_unary⟩
    have expressions : Sampled C .token "true".toList (expressionOver (unaryWithin bound))
        (expressionOver unary) (C.Agree Expression.move) (.loose (Stops 0)) :=
      sampled_chains operands heads_unary 6 (Nat.le_refl 6)
    have suffixed := sampled_suffixed expressions (begins_chains heads_unary 6)
    have visible : AllVisible [("!", UnaryOp.not), ("-", .negate)] := by decide
    have unlike : Unlike [("!", UnaryOp.not), ("-", .negate)] := by decide
    have sign : Sampled C .token "!".toList (oneText [("!", UnaryOp.not), ("-", .negate)])
        (oneText [("!", UnaryOp.not), ("-", .negate)]) (· = ·) (.loose fun _ => True) :=
      sampled_choice (leads_all visible) unlike Place.behind_loose
    have signs : Heads (· ∈ ['!', '-']) (oneText [("!", UnaryOp.not), ("-", .negate)]) :=
      heads_oneText (by decide)
    have unaries : Viable C .token (unaryOver (unaryWithin bound)) (unaryOver unary)
        (C.Agree Expression.move) (.loose (Stops 6)) := by
      refine .or (.spanned (sign.toViable.bind fun op op' => sampled_blanks.skip fun _ _ =>
        operands.bind fun _ _ => .pure ?_ (.refl _))) suffixed.or_fail.toViable fun _ taken _ =>
          signs.bind.spanned.none ((heads_primary _).bind.or .fail) ?_ taken
      · intro same sameOp span span' spans
        rw [sameOp]
        exact congrArg₂ (Expression.unary op') same spans
      · have unsigned : ∀ c ∈ ['!', '-'], ¬ Unsigned c := by decide
        exact unsigned
    exact unaries.congr result_unary

theorem sampled_expression :
    Sampled C .token "true".toList expression expression (C.Agree Expression.move)
      (.loose (Stops 0)) :=
  .bounded fun bound =>
    .congr (sampled_chains (sampled_unaryWithin bound) heads_unary 6 (Nat.le_refl 6)) result_expression

end LeoFront.Grammar

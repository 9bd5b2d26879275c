import LeoFront.Proofs.Completion.Terminals
import LeoFront.Proofs.Places.Expressions

namespace LeoFront.Grammar
open LeoFront.Parser
open Text (units16)
variable {α : Type} {C : Comparison} {P Q : Place} {good better : List Char → Prop}
  {text rest rest' : List Char} {c : Char}

open Classical in
noncomputable def nameWhere (condition : List Char → Prop) : Parser Identifier := do
  guardRest fun rest => decide (condition (leadingWord rest))
  identifier

structure NamedBy (condition : List Char → Prop) (text : List Char) : Prop where
  word : IsWord text
  free : String.ofList text ∉ keywords
  holds : condition text

variable {condition : List Char → Prop}

theorem leadingWord_append (word : IsWord text)
    (ends : ∀ c ∈ rest.head?, wordPart.contains c = false) : leadingWord (text ++ rest) = text := by
  cases text with
  | nil => exact word.elim
  | cons first more =>
    simp [leadingWord, word.1, takeWhile_run word.2 ends]

theorem takes_guardRest {condition : List Char → Bool} {position : Position}
    (holds : condition rest = true) : Takes (guardRest condition) position [] () rest := by
  simp [Takes, guardRest, holds]

open Classical in
theorem takes_nameWhere {position : Position} (named : NamedBy condition text)
    (ends : ∀ c ∈ rest.head?, wordPart.contains c = false) :
    Takes (nameWhere condition) position text
      ⟨String.ofList text, ⟨position, position.after text⟩⟩ rest := by
  have leading := leadingWord_append named.word ends
  have holds : Takes (guardRest fun rest => decide (condition (leadingWord rest))) position [] ()
      (text ++ rest) := takes_guardRest (by simpa [leading] using named.holds)
  have free : Takes (guardRest fun rest => !(keywords.contains (String.ofList (leadingWord rest))))
      position [] () (text ++ rest) := takes_guardRest (by simpa [leading] using named.free)
  obtain ⟨first, more, rfl⟩ := List.exists_cons_of_ne_nil named.word.run.1
  refine holds.bind (Takes.spanned ?_)
  exact free.bind ((takes_oneOf named.word.1 position _).bind
    (takes_manyOf named.word.2 ends).map)

theorem guardRest_bind (condition : List Char → Bool) (next : Unit → Parser α) (cursor : Cursor) :
    (guardRest condition >>= next) cursor =
      if condition cursor.rest then next () cursor else ⟨none, .none⟩ := by
  by_cases holds : condition cursor.rest = true
  · have read : guardRest condition cursor = ⟨some ((), cursor), .none⟩ := if_pos holds
    rw [bind_of_some (congrArg Reply.result read), read, if_pos holds, Furthest.none_merge]
  · have fails : guardRest condition cursor = ⟨none, .none⟩ := if_neg holds
    rw [bind_of_none (congrArg Reply.result fails), fails, if_neg holds]

theorem guardRest_some {condition : List Char → Bool} {cursor after : Cursor} {value : Unit}
    (read : (guardRest condition cursor).result = some (value, after)) :
    condition cursor.rest = true ∧ after = cursor := by
  unfold guardRest at read
  split at read
  · rename_i known
    cases read
    exact ⟨known, rfl⟩
  · cases read

theorem named_of_takes {position : Position} {value : Identifier}
    (taken : Takes (nameWhere condition) position text value rest) :
    NamedBy condition text ∧ (∀ c ∈ rest.head?, wordPart.contains c = false) ∧
      value = ⟨String.ofList text, ⟨position, position.after text⟩⟩ := by
  obtain ⟨_, _, guarded, taken⟩ := bind_some.mp taken
  obtain ⟨holds, rfl⟩ := guardRest_some guarded
  obtain ⟨make, read, rfl⟩ := spanned_some.mp taken
  obtain ⟨_, _, guarded, read⟩ := bind_some.mp read
  obtain ⟨free, rfl⟩ := guardRest_some guarded
  obtain ⟨first, _, here, read⟩ := bind_some.mp read
  obtain ⟨more, _, onward, read⟩ := bind_some.mp read
  cases read
  obtain ⟨parts, ends⟩ := manyOf_ends onward
  have whole : text ++ rest = first :: more ++ rest := by
    rw [List.cons_append, ← manyOf_rest onward, ← oneOf_rest here]
  obtain rfl := List.append_cancel_right whole
  have word : IsWord (first :: more) := ⟨oneOf_contains here, parts⟩
  have leading := leadingWord_append word ends
  dsimp only at holds free
  rw [leading] at holds free
  exact ⟨⟨word, by simpa using free, by simpa using holds⟩, ends, rfl⟩

theorem nameWhere_noted {position : Position} {offset : Nat}
    (noted : Noted (nameWhere condition ⟨text, position⟩).furthest offset) :
    offset = position.offset ∨ ∃ run rest, text = run ++ rest ∧ NamedBy condition run ∧
      offset = position.offset + units16 run := by
  unfold nameWhere identifier at noted
  rw [guardRest_bind] at noted
  split at noted
  · rename_i holds
    rw [furthest_spanned, guardRest_bind] at noted
    split at noted
    · rename_i free
      rcases here : (oneOf wordStart ⟨text, position⟩).result with _ | ⟨first, middle⟩
      · rw [bind_of_none here] at noted
        exact .inl (failsAtStart_oneOf.start noted)
      · rw [bind_of_some here] at noted
        rcases noted.of_merge with noted | ⟨noted, -⟩
        · exact .inl (failsAtStart_oneOf.start noted)
        · obtain ⟨read, whole, moved⟩ := Advances.reaches _ _ _ here
          obtain rfl : read = [first] :=
            List.append_cancel_right (whole.symm.trans (oneOf_rest here))
          dsimp only at whole moved
          have start := oneOf_contains here
          rw [bind_of_some rfl] at noted
          have same := noted.2.symm.trans
            ((congrArg Furthest.offset (Furthest.merge_none _)).trans (manyOf_offset wordPart middle))
          rw [moved, Position.after_offset, Nat.add_assoc, ← Text.units16_append] at same
          refine .inr ⟨_, middle.rest.dropWhile wordPart.contains, ?_, ?_, same⟩
          · rw [List.append_assoc, List.takeWhile_append_dropWhile, whole]
          · have leading : leadingWord text = [first] ++ middle.rest.takeWhile wordPart.contains := by
              rw [whole, List.singleton_append, leadingWord, if_pos start]
              rfl
            dsimp only at holds free
            rw [leading] at holds free
            exact ⟨⟨start, fun c => List.mem_takeWhile_imp⟩, by simpa using free,
              by simpa using holds⟩
    · exact absurd rfl noted.1
  · exact absurd rfl noted.1

theorem NamedBy.visible (named : NamedBy condition text) : Place.Visible text := by
  obtain ⟨first, more, rfl⟩ := List.exists_cons_of_ne_nil named.word.run.1
  exact ⟨first, rfl, wordPart_visible (wordPart_of_wordStart named.word.1)⟩

theorem sampled_nameWhere {sample : List Char} (named : NamedBy condition sample) :
    Sampled C .token sample (nameWhere condition) (nameWhere condition) (C.Agree Identifier.move)
      (.loose good) := by
  have leads {text : List Char} (named : NamedBy condition text) :
      Place.Leads .token text (.loose good) := Place.leads_solid named.visible fun _ _ => trivial
  have newline {rest : List Char} (begins : rest.head? = some '\n') :
      ∀ c ∈ rest.head?, wordPart.contains c = false := by
    rw [begins]
    rintro c ⟨⟩
    decide
  have advances : Advances (nameWhere condition) := by
    unfold nameWhere
    infer_instance
  refine ⟨⟨Advances.reaches _ _ _, ?_, ?_, ?_, ?_⟩, fun rest fresh =>
    ⟨(leads named).fresh fresh, fun position => ⟨_, takes_nameWhere named (newline fresh.2)⟩⟩⟩
  · refine honest_bind honest_guardRest fun _ cursor => ?_
    unfold identifier
    rw [furthest_spanned]
    exact honest_bind honest_guardRest (fun _ => honest_bind failsAtStart_oneOf.honest
      fun _ => honest_bind (fun _ => honest_one _ _) fun _ _ => honest_none) cursor
  · exact fun _ _ => ⟨trivial, nofun⟩
  · intro position text value rest position' _ taken same
    obtain ⟨named, ends, rfl⟩ := named_of_takes taken
    refine ⟨⟨String.ofList text, ⟨position', position'.after text⟩⟩, fun rest' related =>
      ⟨(leads named).relates related,
        takes_nameWhere named (related.2.head not_wordPart_blank ends), ?_⟩⟩
    rw [Comparison.Agree, Identifier.move, Identifier.move, Span.move, Span.move, same,
      Comparison.after_eq same]
  · intro position text offset position' _ noted _
    rcases nameWhere_noted noted with start | ⟨run, unread, rfl, named, units⟩
    · exact .inl ⟨rfl, start⟩
    · refine .inr ⟨run, unread, [], rfl, units, fun rest fresh => ?_⟩
      rw [List.append_nil]
      exact ⟨⟨⟨named.visible.bare _, trivial⟩, by rw [named.visible.head, named.visible.head]⟩, _,
        takes_nameWhere named (newline fresh.2)⟩

theorem nameWhere_eq {cursor : Cursor} (holds : condition (leadingWord cursor.rest)) :
    nameWhere condition cursor = identifier cursor := by
  unfold nameWhere
  rw [guardRest_bind, if_pos (by simpa using holds)]

theorem nameWhere_any : nameWhere (fun _ => True) = identifier :=
  funext fun _ => nameWhere_eq trivial

theorem sampled_identifier : Sampled C .token ['a'] identifier identifier
    (C.Agree Identifier.move) (.loose good) := by
  have named : NamedBy (fun _ => True) ['a'] := ⟨by decide, by decide, trivial⟩
  rw [← nameWhere_any]
  exact sampled_nameWhere named

theorem heads_nameWhere :
    Heads (wordStart.contains · = true) (nameWhere condition) := by
  intro cursor value after read
  obtain ⟨_, _, guarded, named⟩ := bind_some.mp read
  obtain ⟨-, rfl⟩ := guardRest_some guarded
  obtain ⟨_, inner, -⟩ := spanned_some.mp named
  obtain ⟨_, _, guarded', letters⟩ := bind_some.mp inner
  obtain ⟨-, rfl⟩ := guardRest_some guarded'
  obtain ⟨_, _, here, -⟩ := bind_some.mp letters
  exact heads_oneOf _ _ _ here

theorem heads_identifier : Heads (wordStart.contains · = true) identifier := by
  rw [← nameWhere_any]
  exact heads_nameWhere

instance : Nonempty IntegerWidth := ⟨.bits8⟩

instance : Nonempty IntegerType := ⟨⟨true, .bits8⟩⟩

instance : Nonempty Primitive := ⟨.boolean⟩

theorem sampled_integerWord
    (leads : ∀ c, integerSign.contains c = true → P.Leads [c] (.inside false fun _ => True)) :
    Sampled C P "u128".toList integerWord integerWord (· = ·) (.loose good) := by
  have unlike : Unlike integerWidths := by decide
  have width : Sampled C (.inside false fun _ => True) "128".toList (oneText integerWidths)
      (oneText integerWidths) (· = ·) (.loose good) :=
    sampled_choice (fun _ _ => Place.leads_inside fun _ _ => trivial) unlike Place.behind_loose
  have sign : integerSign.contains 'u' = true := by decide
  have integer : Sampled C P "u128".toList integerType integerType (· = ·) (.loose good) :=
    (sampled_oneOf sign leads Place.behind_inside).bind fun sign sign' =>
      width.bind fun width width' =>
        .pure (fun same same' => by rw [same, same']) (.refl (.loose good))
  exact integer.bind fun type type' => sampled_wordEnd.bind fun _ _ =>
    .pure (fun _ same => by rw [same]) (.refl _)

theorem leads_letter {set : CharClass}
    (visible : ∀ c, set.contains c = true → isBlank c = false ∧ c ≠ '/') (c : Char)
    (member : set.contains c = true) : Place.token.Leads [c] Q :=
  Place.leads_solid ⟨c, rfl, visible c member⟩ fun _ _ => trivial

theorem sampled_booleanLiteral : Sampled C .token "true".toList booleanLiteral booleanLiteral
    C.AgreeMade (.loose good) := by
  have visible : AllVisible [("true", "true"), ("false", "false")] := by decide
  have unlike : Unlike [("true", "true"), ("false", "false")] := by decide
  exact (sampled_oneWord (leads_all visible) unlike).map fun _ _ same => same ▸ agreeMade_literal

theorem sampled_someOf {set : CharClass} (member : set.contains c = true)
    (leads : ∀ c, set.contains c = true → P.Leads [c] (.inside false fun _ => True))
    (stands : ∀ rest, Q.Stands rest)
    (stays : ∀ {rest rest'}, Q.Relates rest rest' → (∀ c ∈ rest.head?, set.contains c = false) →
      ∀ c ∈ rest'.head?, set.contains c = false)
    (stops : ∀ {rest}, Q.Fresh rest → ∀ c ∈ rest.head?, set.contains c = false) :
    Sampled C P [c] (someOf set) (someOf set) (· = ·) Q :=
  (sampled_oneOf member leads Place.behind_inside).bind fun _ _ =>
    (sampled_manyOf stands stays stops).bind fun _ _ =>
      .pure (fun same same' => by rw [same, same']) (.refl _)

theorem sampled_addressLiteral : Sampled C .token "aleo1a".toList addressLiteral addressLiteral
    C.AgreeMade (.loose good) := by
  have visible : Place.Visible "aleo1".toList := by decide
  have member : addressPart.contains 'a' = true := by decide
  have blanks (c : Char) (blank : isBlank c = true) : addressPart.contains c = false := by
    by_contra part
    have part' := addressPart_part (by simpa using part)
    rw [not_wordPart_blank c blank] at part'
    cases part'
  have newline {rest : List Char} (begins : rest.head? = some '\n') :
      ∀ c ∈ rest.head?, addressPart.contains c = false := by
    rw [begins]
    rintro c ⟨⟩
    decide
  have run : Sampled C (.inside false fun _ => True) ['a'] (someOf addressPart) (someOf addressPart)
      (· = ·) (.loose good) :=
    sampled_someOf member (fun _ _ => Place.leads_inside fun _ _ => trivial) (fun _ => trivial)
      (fun related => related.2.head blanks) fun fresh => newline fresh.2
  exact (sampled_fixed visible Place.behind_inside).bind fun _ _ => run.bind fun _ _ =>
    .pure (fun same _ => same ▸ agreeMade_literal) (.refl _)

theorem integerWord_none {cursor : Cursor}
    (other : ∀ c ∈ cursor.rest.head?, integerSign.contains c = false) :
    (integerWord cursor).result = none := by
  rcases read : (integerWord cursor).result with _ | ⟨value, after⟩
  · rfl
  · obtain ⟨_, _, typed, -⟩ := bind_some.mp read
    obtain ⟨sign, _, here, -⟩ := bind_some.mp typed
    have member := oneOf_contains here
    rw [other sign (by rw [oneOf_rest here]; rfl)] at member
    cases member

theorem takes_oneWord {choices : List (String × α)} {position : Position} {value : α}
    (taken : Takes (oneWord choices) position text value rest) :
    ∃ choice ∈ choices, text = choice.1.toList ∧ value = choice.2 := by
  obtain ⟨choice, member, same, written⟩ := oneWord_rest taken
  exact ⟨choice, member, List.append_cancel_right written, same⟩

abbrev Digitless (text : List Char) : Prop := ∀ c ∈ text.head?, digit.contains c = false

theorem sampled_numberSuffix : Sampled C (.inside true Digitless) "u128".toList numberSuffix
    numberSuffix (· = ·) (.loose good) := by
  have integer : Sampled C (.inside true Digitless) "u128".toList integerWord integerWord (· = ·)
      (.loose good) := by
    refine sampled_integerWord fun c member => Place.leads_inside fun rest _ => ?_
    have signs : c = 'i' ∨ c = 'u' := by
      simp [integerSign, CharClass.contains] at member
      grind
    rintro c ⟨⟩
    rcases signs with rfl | rfl <;> decide
  have heads : ∀ choice ∈ fieldSuffixes, ∃ c ∈ choice.1.toList.head?,
      digit.contains c = false ∧ integerSign.contains c = false := by decide
  have unlike : Unlike fieldSuffixes := by decide
  have word : Sampled C (.inside true Digitless) "field".toList (oneWord fieldSuffixes)
      (oneWord fieldSuffixes) (· = ·) (.loose good) := by
    refine sampled_oneWord (fun choice member => Place.leads_inside fun rest _ => ?_) unlike
    obtain ⟨c, head, outside, -⟩ := heads choice member
    rw [Digitless, List.head?_append, head]
    rintro c ⟨⟩
    exact outside
  refine integer.or word.or_fail.toViable ?_
  intro position text value rest _ taken _
  rcases or_some taken with taken | none
  · obtain ⟨choice, member, rfl, -⟩ := takes_oneWord taken
    obtain ⟨c, head, -, outside⟩ := heads choice member
    refine integerWord_none ?_
    rw [List.head?_append, head]
    rintro c ⟨⟩
    exact outside
  · cases none

theorem sampled_numberLiteral : Sampled C .token "0u128".toList numberLiteral numberLiteral
    C.AgreeMade (.loose good) := by
  have member : digit.contains '0' = true := by decide
  have digits : Sampled C .token ['0'] (someOf digit) (someOf digit) (· = ·)
      (.inside true Digitless) :=
    sampled_someOf member (leads_letter fun c member => wordPart_visible (digit_part member))
      (fun _ => trivial) (fun others _ => others) id
  exact digits.bind fun _ _ => sampled_numberSuffix.bind fun _ _ =>
    .pure (fun same same' => by rw [same, same']; exact agreeMade_literal) (.refl _)

theorem sampled_stringLiteral : Sampled C .token "\"\"".toList stringLiteral stringLiteral
    C.AgreeMade (.loose good) := by
  have visible : Place.Visible "\"".toList := by decide
  have outside {rest : List Char} (begins : rest.head? = some '"') :
      ∀ c ∈ rest.head?, stringPart.contains c = false := by
    rw [begins]
    rintro c ⟨⟩
    decide
  have inside : Sampled C (.inside false fun _ => True) [] (manyOf stringPart) (manyOf stringPart)
      (· = ·) (.inside true fun rest => rest.head? = some '"') :=
    sampled_manyOf (fun _ => trivial) (fun closes _ => outside closes) outside
  have closing : Sampled C (.inside true fun rest => rest.head? = some '"') "\"".toList
      (literal "\"") (literal "\"") (· = ·) (.loose good) :=
    sampled_literal (Place.leads_inside fun _ _ => rfl) Place.behind_loose
  exact (sampled_fixed visible Place.behind_inside).bind fun _ _ => inside.bind fun _ _ =>
    closing.bind fun _ _ => .pure (fun _ same _ => same ▸ agreeMade_literal) (.refl _)

theorem word_unique {text' : List Char} (same : text ++ rest = text' ++ rest')
    (parts : ∀ c ∈ text, wordPart.contains c = true)
    (parts' : ∀ c ∈ text', wordPart.contains c = true)
    (ends : ∀ c ∈ rest.head?, wordPart.contains c = false)
    (ends' : ∀ c ∈ rest'.head?, wordPart.contains c = false) : text = text' := by
  rw [← takeWhile_run parts ends, same, takeWhile_run parts' ends']

def Unprimitive (word : List Char) : Prop := ∀ type : Primitive, type.text.toList ≠ word

noncomputable def typeApart : Parser Ty :=
  firstOf [
    do return .primitive (← oneWord primitiveWords),
    do return .primitive (← integerWord),
    do return .named (← nameWhere Unprimitive)]

theorem leadingWord_ends {text : List Char} (nonempty : leadingWord text ≠ []) :
    ∃ rest, text = leadingWord text ++ rest ∧ ∀ c ∈ rest.head?, wordPart.contains c = false := by
  cases text with
  | nil => exact absurd rfl nonempty
  | cons first more =>
    rw [leadingWord] at nonempty ⊢
    split at nonempty
    · rename_i start
      rw [if_pos start]
      refine ⟨more.dropWhile wordPart.contains, ?_, ?_⟩
      · rw [List.cons_append, List.takeWhile_append_dropWhile]
      · intro c head
        have ends := List.head?_dropWhile_not wordPart.contains more
        rw [head] at ends
        simpa using ends
    · exact absurd rfl nonempty

theorem type_eq : type = typeApart := by
  funext cursor
  refine or_congr_at fun noWord => or_congr_at fun noInteger => or_congr_left (bind_congr_at ?_)
  refine (nameWhere_eq fun primitive same => ?_).symm
  have nonempty : leadingWord cursor.rest ≠ [] := by
    rw [← same]
    rcases primitive with _ | _ | _ | _ | _ | _ | ⟨_ | _, _ | _ | _ | _ | _⟩ <;> decide
  obtain ⟨rest, whole, ends⟩ := leadingWord_ends nonempty
  obtain ⟨value, after, read, rfl⟩ := accepts_primitiveText primitive ends cursor.position
  rw [same, ← whole] at read
  rcases or_some read with word | read
  · cases noWord.symm.trans word
  rcases or_some read with integer | read
  · cases noInteger.symm.trans integer
  rcases or_some read with named | none
  · obtain ⟨_, _, _, read⟩ := bind_some.mp named
    cases read
  · cases none

theorem oneWord_unprimitive {position : Position} (named : NamedBy Unprimitive text)
    (ends : ∀ c ∈ rest.head?, wordPart.contains c = false) :
    (oneWord primitiveWords ⟨text ++ rest, position⟩).result = none := by
  rcases read : (oneWord primitiveWords ⟨text ++ rest, position⟩).result with _ | ⟨value, after⟩
  · rfl
  · obtain ⟨word, whole, -, parts, ends'⟩ := readsWord_oneWord (by decide) _ _ _ read
    obtain ⟨choice, member, -, written⟩ := oneWord_rest read
    obtain rfl := List.append_cancel_right (whole.symm.trans written)
    have same := word_unique whole named.word.run.2 parts ends ends'
    have texts : ∀ choice ∈ primitiveWords, choice.1 = choice.2.text := by decide
    rw [texts choice member] at same
    exact absurd same.symm (named.holds choice.2)

theorem integerWord_unprimitive {position : Position} (named : NamedBy Unprimitive text)
    (ends : ∀ c ∈ rest.head?, wordPart.contains c = false) :
    (integerWord ⟨text ++ rest, position⟩).result = none := by
  rcases read : (integerWord ⟨text ++ rest, position⟩).result with _ | ⟨value, after⟩
  · rfl
  · obtain ⟨word, whole, -, parts, ends'⟩ := readsWord_integerWord _ _ _ read
    obtain ⟨integer, -, written⟩ := integerWord_rest read
    obtain rfl := List.append_cancel_right (whole.symm.trans written)
    have same := word_unique whole named.word.run.2 parts ends ends'
    exact absurd same.symm (named.holds (.integer integer))

instance : Nonempty Identifier := ⟨⟨"", .none⟩⟩

instance : Nonempty Ty := ⟨.primitive .boolean⟩

theorem integerWord_fails {cursor after : Cursor} {primitive : Primitive}
    (read : (oneWord primitiveWords cursor).result = some (primitive, after)) :
    (integerWord cursor).result = none := by
  have heads : ∀ choice ∈ primitiveWords, ∃ c ∈ choice.1.toList.head?,
      integerSign.contains c = false := by decide
  obtain ⟨choice, member, -, written⟩ := oneWord_rest read
  obtain ⟨c, head, outside⟩ := heads choice member
  refine integerWord_none ?_
  rw [written, List.head?_append, head]
  rintro c ⟨⟩
  exact outside

noncomputable abbrev namedType : Parser Ty := do return Ty.named (← nameWhere Unprimitive)

theorem unprimitive_of_takes {position : Position} {value : Ty}
    (taken : Takes (namedType.or fail) position text value rest) :
    NamedBy Unprimitive text ∧ ∀ c ∈ rest.head?, wordPart.contains c = false := by
  rcases or_some taken with taken | none
  · obtain ⟨_, here, -⟩ := takes_map taken
    obtain ⟨named, ends, -⟩ := named_of_takes here
    exact ⟨named, ends⟩
  · cases none

theorem sampled_wordType : Sampled C .token "address".toList
    (do return Ty.primitive (← oneWord primitiveWords))
    (do return Ty.primitive (← oneWord primitiveWords)) (C.Agree Ty.move) (.loose good) := by
  have visible : AllVisible primitiveWords := by decide
  have unlike : Unlike primitiveWords := by decide
  exact (sampled_oneWord (leads_all visible) unlike).map fun _ _ => congrArg Ty.primitive

theorem sampled_integerType : Sampled C .token "u128".toList
    (do return Ty.primitive (← integerWord)) (do return Ty.primitive (← integerWord))
    (C.Agree Ty.move) (.loose good) := by
  have signs : ∀ c, integerSign.contains c = true → isBlank c = false ∧ c ≠ '/' :=
    fun c sign => wordPart_visible (wordPart_of_integerSign sign)
  exact (sampled_integerWord (leads_letter signs)).map fun _ _ => congrArg Ty.primitive

theorem sampled_namedType :
    Sampled C .token ['a'] namedType namedType (C.Agree Ty.move) (.loose good) := by
  have unprimitive : NamedBy Unprimitive ['a'] := by
    refine ⟨by decide, by decide, fun primitive => ?_⟩
    rcases primitive with _ | _ | _ | _ | _ | _ | ⟨_ | _, _ | _ | _ | _ | _⟩ <;> decide
  exact (sampled_nameWhere unprimitive).map fun _ _ => congrArg Ty.named

theorem sampled_type : Sampled C .token "address".toList type type (C.Agree Ty.move)
    (.loose good) := by
  rw [type_eq]
  have integerOrNamed : Viable C .token
      (Parser.or (do return Ty.primitive (← integerWord)) (namedType.or fail))
      (Parser.or (do return Ty.primitive (← integerWord)) (namedType.or fail))
      (C.Agree Ty.move) (.loose good) := by
    refine sampled_integerType.toViable.or sampled_namedType.or_fail.toViable fun _ taken _ => ?_
    obtain ⟨named, ends⟩ := unprimitive_of_takes taken
    exact bind_fails (integerWord_unprimitive named ends)
  refine sampled_wordType.or integerOrNamed ?_
  intro position text value rest _ taken _
  refine bind_fails ?_
  rcases or_some taken with integer | named
  · obtain ⟨_, integer, -⟩ := takes_map integer
    cases read : (oneWord primitiveWords ⟨text ++ rest, position⟩).result with
    | none => rfl
    | some found => cases (integerWord_fails read).symm.trans integer
  · obtain ⟨named, ends⟩ := unprimitive_of_takes named
    exact oneWord_unprimitive named ends

end LeoFront.Grammar

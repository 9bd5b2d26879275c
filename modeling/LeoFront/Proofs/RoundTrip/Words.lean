import LeoFront.Proofs.RoundTrip.Acceptance
import LeoFront.Proofs.RoundTrip.Printer

namespace LeoFront.Grammar
open LeoFront.Parser
variable {α : Type} {ts : List Token} {t : Token}

/-- The tokens begin with no blank and with no comment. -/
def Solid (ts : List Token) : Prop := blankRun (spaced ts) = 0

theorem blankRun_of_solid_head {c : Char} (rest : List Char) (visible : isBlank c = false)
    (slash : c ≠ '/') : blankRun (c :: rest) = 0 := by
  unfold blankRun
  split
  · simp_all
  · simp_all
  · simp_all
  · rfl

theorem accepts_blanks (solid : Solid ts) :
    Accepts blanks (gap ts) (fun _ => True) (spaced ts) := by
  intro position
  cases ts with
  | nil => exact ⟨_, _, rfl, trivial⟩
  | cons t rest =>
    have one : blankRun (gap (t :: rest)) = 1 := by
      change blankRun (' ' :: spaced (t :: rest)) = 1
      have run : blankRun (' ' :: spaced (t :: rest)) = 1 + blankRun (spaced (t :: rest)) := by
        simp [blankRun, isBlank]
      rw [run, solid]
    refine ⟨(), position.after [' '], ?_, trivial⟩
    simp only [blanks, one]
    rfl

theorem accepts_blanks_before (text : String) (ts : List Token)
    (solid : Solid (text.toList :: ts)) :
    Accepts blanks (gap (text.toList :: ts)) (fun _ => True) (spaced (text.toList :: ts)) :=
  accepts_blanks solid

theorem accepts_text (text : String) (rest : List Char) :
    Accepts (literal text) (text.toList ++ rest) (fun _ => True) rest := by
  intro position
  refine ⟨(), position.after text.toList, ?_, trivial⟩
  have begins : text.toList.isPrefixOf (text.toList ++ rest) = true := by simp
  simp [literal, begins, Cursor.skip]

theorem accepts_literal (text : String) (ts : List Token) :
    Accepts (literal text) (spaced (text.toList :: ts)) (fun _ => True) (gap ts) :=
  accepts_text text (gap ts)

theorem accepts_past {p : Parser α} {good : α → Prop} {rest : List Char} (mark : String)
    (ts : List Token) (solid : Solid (mark.toList :: ts)) (accepts : Accepts p (gap ts) good rest) :
    Accepts (do
      blanks
      literal mark
      p) (gap (mark.toList :: ts)) good rest :=
  (accepts_blanks solid).bind fun _ _ => (accepts_literal mark ts).bind fun _ _ => accepts

theorem rejects_literal {text : String} (blankless : ' ' ∉ text.toList)
    (other : ¬ text.toList <+: t) : Rejects (literal text) (t ++ gap ts) := by
  have fails : text.toList.isPrefixOf (t ++ gap ts) = false := by
    rw [Bool.eq_false_iff, ne_eq, List.isPrefixOf_iff_prefix]
    intro begins
    rcases List.prefix_or_prefix_of_prefix begins (List.prefix_append t (gap ts)) with short | long
    · exact other short
    -- a longer text would go on with the blank behind the token
    · obtain ⟨more, same⟩ := long
      rw [← same] at begins blankless
      have follows := (List.prefix_append_right_inj t).mp begins
      cases more with
      | nil =>
        rw [← same, List.append_nil] at other
        exact other List.prefix_rfl
      | cons c more =>
        cases ts with
        | nil => simp [gap] at follows
        | cons next ts =>
          obtain ⟨rfl, -⟩ := List.cons_prefix_cons.mp follows
          simp at blankless
  intro position
  simp [literal, fails]

theorem oneText_cases {choices : List (String × α)}
    (blankless : ∀ choice ∈ choices, ' ' ∉ choice.1.toList) (t : Token) (ts : List Token) :
    Rejects (oneText choices) (t ++ gap ts) ∨
      ∃ choice ∈ choices, ∃ more, t = choice.1.toList ++ more ∧
        Accepts (oneText choices) (t ++ gap ts) (· = choice.2) (more ++ gap ts) := by
  induction choices with
  | nil => exact .inl fun _ => rfl
  | cons choice others ih =>
    let first : Parser α := do
      literal choice.1
      return choice.2
    change Rejects (first.or (oneText others)) _ ∨ ∃ taken ∈ choice :: others, ∃ more, _ ∧
      Accepts (first.or (oneText others)) _ _ _
    by_cases begins : choice.1.toList <+: t
    · obtain ⟨more, rfl⟩ := begins
      refine .inr ⟨choice, List.mem_cons_self, more, rfl, ?_⟩
      rw [List.append_assoc]
      have taken : Accepts first (choice.1.toList ++ (more ++ gap ts)) (· = choice.2)
          (more ++ gap ts) :=
        (accepts_text choice.1 _).bind fun _ _ => accepts_pure rfl
      exact taken.or_left
    · have head : Rejects first (t ++ gap ts) :=
        (rejects_literal (blankless choice List.mem_cons_self) begins).bind
      rcases ih fun other member => blankless other (List.mem_cons_of_mem _ member) with
        none | ⟨taken, member, more, same, accepts⟩
      · exact .inl (head.or none)
      · exact .inr ⟨taken, List.mem_cons_of_mem _ member, more, same, head.or_right accepts⟩

theorem wordPart_ne_blank {c : Char} (part : wordPart.contains c = true) : c ≠ ' ' := by
  rintro rfl
  exact absurd part (by decide)

theorem wordPart_visible {c : Char} (part : wordPart.contains c = true) :
    isBlank c = false ∧ c ≠ '/' := by
  constructor
  · rw [Bool.eq_false_iff]
    intro blank
    simp only [isBlank, Bool.or_eq_true, decide_eq_true_eq] at blank
    rcases blank with ((rfl | rfl) | rfl) | rfl <;> exact absurd part (by decide)
  · rintro rfl
    exact absurd part (by decide)

theorem wordPart_of_wordStart {c : Char} (start : wordStart.contains c = true) :
    wordPart.contains c = true := by
  simp [wordStart, wordPart, CharClass.contains] at start ⊢
  grind

def Separate (t : Token) : Prop :=
  (∀ c ∈ t, wordPart.contains c = true) ∨ ∀ c ∈ t.head?, wordPart.contains c = false

theorem gap_head {set : CharClass} (blank : set.contains ' ' = false) (ts : List Token) :
    ∀ c ∈ (gap ts).head?, set.contains c = false := by
  cases ts with
  | nil => rintro c ⟨⟩
  | cons t ts =>
    rintro c ⟨⟩
    exact blank

theorem accepts_wordEnd_before {rest : List Char}
    (ends : ∀ c ∈ rest.head?, wordPart.contains c = false) :
    Accepts wordEnd rest (fun _ => True) rest := by
  intro position
  refine ⟨(), position, ?_, trivial⟩
  cases rest with
  | nil => rfl
  | cons c rest => simp [wordEnd, guardRest, ends c rfl]

theorem accepts_wordEnd (ts : List Token) :
    Accepts wordEnd (gap ts) (fun _ => True) (gap ts) :=
  accepts_wordEnd_before (gap_head (by decide) ts)

theorem rejects_wordEnd {c : Char} {rest : List Char} (part : wordPart.contains c = true) :
    Rejects wordEnd (c :: rest) := by
  intro position
  simp [wordEnd, guardRest, part]

def IsRun (t : Token) : Prop := t ≠ [] ∧ ∀ c ∈ t, wordPart.contains c = true

instance (t : Token) : Decidable (IsRun t) :=
  decidable_of_iff (t ≠ [] ∧ t.all wordPart.contains = true)
    (and_congr_right fun _ => List.all_eq_true)

theorem IsRun.blankless (run : IsRun t) : ' ' ∉ t :=
  fun member => wordPart_ne_blank (run.2 _ member) rfl

theorem rejects_wordEnd_inside {word more : Token} (run : IsRun word)
    (separate : Separate (word ++ more)) (other : word ≠ word ++ more) :
    Rejects wordEnd (more ++ gap ts) := by
  cases more with
  | nil => simp at other
  | cons c more =>
    refine rejects_wordEnd ?_
    rcases separate with parts | mark
    · exact parts c (by simp)
    · obtain ⟨first, rest, rfl⟩ := List.exists_cons_of_ne_nil run.1
      have part := run.2 first List.mem_cons_self
      rw [mark first (by simp)] at part
      cases part

theorem accepts_word (text : String) (ts : List Token) :
    Accepts (word text) (spaced (text.toList :: ts)) (fun _ => True) (gap ts) :=
  (accepts_literal text ts).bind fun _ _ => accepts_wordEnd ts

theorem rejects_word {text : String} (run : IsRun text.toList) (separate : Separate t)
    (other : text.toList ≠ t) : Rejects (word text) (spaced (t :: ts)) := by
  by_cases begins : text.toList <+: t
  · obtain ⟨more, rfl⟩ := begins
    change Rejects (word text) (text.toList ++ more ++ gap ts)
    rw [List.append_assoc]
    exact (accepts_text text _).bind_rejects fun _ _ =>
      rejects_wordEnd_inside run separate other
  · exact (rejects_literal run.blankless begins).bind

theorem rejects_oneWord {choices : List (String × α)} (separate : Separate t)
    (runs : ∀ choice ∈ choices, IsRun choice.1.toList)
    (others : ∀ choice ∈ choices, choice.1.toList ≠ t) :
    Rejects (oneWord choices) (spaced (t :: ts)) := by
  have blankless : ∀ choice ∈ choices, ' ' ∉ choice.1.toList :=
    fun choice member => (runs choice member).blankless
  rcases oneText_cases blankless t ts with none | ⟨choice, member, more, rfl, accepts⟩
  · exact none.bind
  · exact accepts.bind_rejects fun _ _ =>
      (rejects_wordEnd_inside (runs choice member) separate (others choice member)).bind

theorem accepts_oneOf {set : CharClass} {c : Char} (member : set.contains c = true)
    (rest : List Char) : Accepts (oneOf set) (c :: rest) (· = c) rest := by
  intro position
  refine ⟨c, position.after [c], ?_, rfl⟩
  simp [oneOf, member, Cursor.skip]

theorem rejects_oneOf {set : CharClass} {c : Char} (member : set.contains c = false)
    (rest : List Char) : Rejects (oneOf set) (c :: rest) := by
  intro position
  simp [oneOf, member]

theorem accepts_manyOf {set : CharClass} {run rest : List Char}
    (members : ∀ c ∈ run, set.contains c = true)
    (stop : ∀ c ∈ rest.head?, set.contains c = false) :
    Accepts (manyOf set) (run ++ rest) (· = run) rest := by
  have taken : (run ++ rest).takeWhile set.contains = run := by
    rw [List.takeWhile_append_of_pos members]
    cases rest with
    | nil => simp
    | cons c rest => simp [stop c rfl]
  intro position
  refine ⟨run, position.after run, ?_, rfl⟩
  simp [manyOf, taken, Cursor.skip]

theorem accepts_someOf {set : CharClass} {first : Char} {run rest : List Char}
    (members : ∀ c ∈ first :: run, set.contains c = true)
    (stop : ∀ c ∈ rest.head?, set.contains c = false) :
    Accepts (someOf set) (first :: run ++ rest) (· = first :: run) rest :=
  (accepts_oneOf (members first List.mem_cons_self) _).bind fun _ same =>
    (accepts_manyOf (fun c member => members c (List.mem_cons_of_mem _ member)) stop).bind
      fun _ sameRun => accepts_pure (by rw [same, sameRun])

theorem IsWord.run (isWord : IsWord t) : IsRun t := by
  cases t with
  | nil => exact isWord.elim
  | cons first rest =>
    refine ⟨List.cons_ne_nil first rest, ?_⟩
    rintro c (_ | ⟨_, member⟩)
    · exact wordPart_of_wordStart isWord.1
    · exact isWord.2 c member

theorem IsRun.separate (run : IsRun t) : Separate t := .inl run.2

theorem IsRun.solid (run : IsRun t) (ts : List Token) : Solid (t :: ts) := by
  obtain ⟨first, rest, rfl⟩ := List.exists_cons_of_ne_nil run.1
  obtain ⟨visible, slash⟩ := wordPart_visible (run.2 first List.mem_cons_self)
  exact blankRun_of_solid_head _ visible slash

theorem IsName.solid {name : String} (isName : IsName name) (ts : List Token) :
    Solid (name.toList :: ts) :=
  (IsWord.run isName.word).solid ts

theorem leadingWord_of_isWord (isWord : IsWord t) (ts : List Token) :
    leadingWord (t ++ gap ts) = t := by
  cases t with
  | nil => exact isWord.elim
  | cons first rest =>
    have taken : (rest ++ gap ts).takeWhile wordPart.contains = rest := by
      rw [List.takeWhile_append_of_pos isWord.2]
      cases ts with
      | nil => simp [gap]
      | cons next ts =>
        have stop : wordPart.contains ' ' = false := by decide
        simp [gap, stop]
    simp [leadingWord, isWord.1, taken]

theorem IsName.ne_keyword {name : String} (isName : IsName name) {keyword : String}
    (member : keyword ∈ keywords) : keyword.toList ≠ name.toList := by
  intro same
  rw [String.toList_inj] at same
  exact isName.free (same ▸ member)

theorem accepts_identifier {identifier : Identifier} (wellFormed : identifier.WellFormed)
    (ts : List Token) : Accepts Grammar.identifier (spaced (identifier.name.toList :: ts))
      (·.erase = identifier.erase) (gap ts) := by
  have isWord := wellFormed.word
  have unreserved : Accepts (guardRest fun rest =>
      !(keywords.contains (String.ofList (leadingWord rest))))
      (spaced (identifier.name.toList :: ts)) (fun _ => True)
      (spaced (identifier.name.toList :: ts)) := by
    intro position
    refine ⟨(), position, ?_, trivial⟩
    have word := leadingWord_of_isWord isWord ts
    simp [guardRest, spaced, word, wellFormed.free]
  refine Accepts.spanned (unreserved.bind fun _ _ => ?_)
  obtain ⟨first, rest, same⟩ : ∃ first rest, identifier.name.toList = first :: rest :=
    List.exists_cons_of_ne_nil isWord.run.1
  rw [same] at isWord
  rw [spaced, same]
  refine (accepts_oneOf isWord.1 _).bind fun _ sameFirst => ?_
  refine (accepts_manyOf isWord.2 (gap_head (by decide) ts)).bind fun _ sameRest => ?_
  refine accepts_pure fun span => ?_
  rw [sameFirst, sameRest, ← same, String.ofList_toList]
  rfl

theorem accepts_primitiveText (type : Primitive) {rest : List Char}
    (ends : ∀ c ∈ rest.head?, wordPart.contains c = false) :
    Accepts Grammar.type (type.text.toList ++ rest) (· = .primitive type) rest := by
  have wordEnds := accepts_wordEnd_before ends
  have word (read : Accepts (oneText primitiveWords) (type.text.toList ++ rest) (· = type) rest) :
      Accepts Grammar.type (type.text.toList ++ rest) (· = .primitive type) rest :=
    Accepts.firstOf_head ((read.bind fun _ same => wordEnds.bind fun _ _ => accepts_pure same).bind
      fun _ same => accepts_pure (congrArg Ty.primitive same))
  cases type with
  | integer type =>
    have noWord : Rejects (oneWord primitiveWords) (type.text.toList ++ rest) := by
      intro position
      rcases type with ⟨_ | _, _ | _ | _ | _ | _⟩ <;> rfl
    have read : Accepts integerType (type.text.toList ++ rest) (· = type) rest := by
      intro position
      rcases type with ⟨_ | _, _ | _ | _ | _ | _⟩ <;> exact ⟨_, _, rfl, rfl⟩
    refine noWord.bind.firstOf_tail (Accepts.firstOf_head ?_)
    refine (read.bind fun _ same => wordEnds.bind fun _ _ => accepts_pure ?_).bind
      fun _ same => accepts_pure (congrArg Ty.primitive same)
    exact congrArg Primitive.integer same
  | address | boolean | field | group | scalar | string => exact word fun _ => ⟨_, _, rfl, rfl⟩

theorem accepts_primitive (type : Primitive) (ts : List Token) :
    Accepts Grammar.type (spaced (type.text.toList :: ts)) (·.erase = .primitive type) (gap ts) :=
  (accepts_primitiveText type (gap_head (by decide) ts)).imp fun _ same => by rw [same]; rfl

theorem integerText_of_sign {sign : Char} (isSign : integerSign.contains sign = true)
    {choice : String × IntegerWidth} (member : choice ∈ integerWidths) :
    (IntegerType.text ⟨sign = 'i', choice.2⟩).toList = sign :: choice.1.toList := by
  have signs : sign = 'i' ∨ sign = 'u' := by
    simp [integerSign, CharClass.contains] at isSign
    grind
  have widths : ∀ choice ∈ integerWidths, choice.2.text = choice.1 := by decide
  rcases signs with rfl | rfl <;> simp [IntegerType.text, widths choice member]

theorem rejects_integerWord {name : String} (isName : IsName name)
    (other : ∀ type : IntegerType, type.text ≠ name) (ts : List Token) :
    Rejects integerWord (spaced (name.toList :: ts)) := by
  have parts := isName.word.run.2
  obtain ⟨sign, rest, same⟩ := List.exists_cons_of_ne_nil isName.word.run.1
  rw [same] at parts
  rw [spaced, same]
  cases isSign : integerSign.contains sign with
  | false =>
    exact (rejects_oneOf isSign (rest ++ gap ts)).bind.bind
  | true =>
    have signed := accepts_oneOf isSign (rest ++ gap ts)
    have blankless : ∀ choice ∈ integerWidths, ' ' ∉ choice.1.toList := by decide
    rcases oneText_cases blankless rest ts with none | ⟨choice, member, more, rfl, width⟩
    · exact (signed.bind_rejects fun _ _ => none.bind).bind
    · have read : Accepts integerType (sign :: (choice.1.toList ++ more ++ gap ts)) (fun _ => True)
          (more ++ gap ts) :=
        signed.bind fun _ _ => width.bind fun _ _ => accepts_pure trivial
      refine read.bind_rejects fun _ _ => Rejects.bind ?_
      cases more with
      | nil =>
        rw [List.append_nil] at same
        exact absurd (String.toList_inj.mp ((integerText_of_sign isSign member).trans same.symm))
          (other _)
      | cons c more => exact rejects_wordEnd (parts c (by simp))

theorem accepts_type {type : Ty} (wellFormed : type.WellFormed) (ts : List Token) :
    Accepts Grammar.type (spaced (type.tokens ++ ts)) (·.erase = type.erase) (gap ts) := by
  cases type with
  | primitive type => exact accepts_primitive type ts
  | named identifier =>
    obtain ⟨isName, free⟩ := wellFormed
    have separate := (IsWord.run isName.word).separate
    have words : Rejects (oneWord primitiveWords) (spaced (identifier.name.toList :: ts)) := by
      refine rejects_oneWord separate ?_ ?_
      · decide
      · have texts : ∀ choice ∈ primitiveWords, choice.1 = choice.2.text := by decide
        intro choice member same
        rw [texts choice member, String.toList_inj] at same
        exact free choice.2 same
    have integers := rejects_integerWord isName (fun type => free (.integer type)) ts
    refine (Rejects.bind words).firstOf_tail ((Rejects.bind integers).firstOf_tail ?_)
    refine Accepts.firstOf_head ((accepts_identifier isName ts).bind fun _ same => ?_)
    exact accepts_pure (congrArg Ty.named same)
  | unresolved => exact wellFormed.elim

theorem solid_type {type : Ty} (wellFormed : type.WellFormed) (ts : List Token) :
    Solid (type.tokens ++ ts) := by
  cases type with
  | primitive type =>
    rcases type with _ | _ | _ | _ | _ | _ | ⟨_ | _, _ | _ | _ | _ | _⟩ <;> rfl
  | named identifier => exact IsName.solid wellFormed.1 ts
  | unresolved => exact wellFormed.elim

end LeoFront.Grammar

import LeoFront.Proofs.RoundTrip.Writing

namespace LeoFront.Grammar
open LeoFront.Parser
variable {ts : List Token}

theorem rejects_boolean {t : Token} (separate : Separate t) (notTrue : "true".toList ≠ t)
    (notFalse : "false".toList ≠ t) : Rejects booleanLiteral (spaced (t :: ts)) := by
  refine Rejects.bind (rejects_oneWord separate ?_ ?_)
  · decide
  · simp only [List.forall_mem_cons, List.not_mem_nil, false_implies, implies_true, and_true]
    exact ⟨notTrue, notFalse⟩

theorem accepts_addressText {run rest : List Char} (nonempty : run ≠ [])
    (parts : ∀ c ∈ run, addressPart.contains c = true)
    (ends : ∀ c ∈ rest.head?, addressPart.contains c = false) :
    Accepts (spanned addressLiteral) ("aleo1".toList ++ (run ++ rest))
      (·.erase = .literal (String.ofList ("aleo1".toList ++ run)) .address .none) rest := by
  obtain ⟨first, run, rfl⟩ := List.exists_cons_of_ne_nil nonempty
  refine Accepts.spanned ((accepts_text "aleo1" _).bind fun _ _ => ?_)
  refine (accepts_someOf parts ends).bind fun _ read => accepts_pure fun span => ?_
  rw [read, String.ofList_append, String.ofList_toList, Expression.erase]

theorem accepts_address {value : String} {rest : List Char}
    (same : value.toList = "aleo1".toList ++ rest) (nonempty : rest ≠ [])
    (parts : ∀ c ∈ rest, addressPart.contains c = true) (inner : Parser Expression) :
    Accepts (primary inner) (spaced (value.toList :: ts))
      (·.erase = .literal value .address .none) (gap ts) := by
  have separate := (isRun_address parts).separate
  rw [same]
  refine (rejects_boolean separate (by rintro ⟨⟩) (by rintro ⟨⟩)).spanned.firstOf_tail ?_
  refine Accepts.firstOf_head ?_
  rw [spaced, List.append_assoc]
  refine (accepts_addressText nonempty parts (gap_head (by decide) ts)).imp fun _ read => ?_
  rw [read, ← same, String.ofList_toList]

theorem accepts_numberSuffix (type : Primitive) (ts : List Token)
    (number : type ≠ .address ∧ type ≠ .boolean ∧ type ≠ .string) :
    Accepts numberSuffix (type.text.toList ++ gap ts) (· = type) (gap ts) := by
  intro position
  rcases type with _ | _ | _ | _ | _ | _ | ⟨_ | _, _ | _ | _ | _ | _⟩ <;> cases ts <;>
    first
      | exact ⟨_, _, rfl, rfl⟩
      | simp at number

theorem numberText_head (type : Primitive) (rest : List Char) :
    ∀ c ∈ (type.text.toList ++ rest).head?, digit.contains c = false := by
  rcases type with _ | _ | _ | _ | _ | _ | ⟨_ | _, _ | _ | _ | _ | _⟩ <;> rintro c ⟨⟩ <;> decide

theorem accepts_number {value : String} {type : Primitive}
    (digits : value.toList ≠ [] ∧ ∀ c ∈ value.toList, digit.contains c = true)
    (number : type ≠ .address ∧ type ≠ .boolean ∧ type ≠ .string) (inner : Parser Expression) :
    Accepts (primary inner) (spaced ((value.toList ++ type.text.toList) :: ts))
      (·.erase = .literal value type .none) (gap ts) := by
  have separate := (isRun_number digits (isRun_typeText type).2).separate
  obtain ⟨first, run, same⟩ := List.exists_cons_of_ne_nil digits.1
  have members := digits.2
  rw [same] at separate members ⊢
  have isDigit := members first List.mem_cons_self
  have letter {c : Char} (other : digit.contains c = false) : first ≠ c := by
    rintro rfl
    rw [isDigit] at other
    cases other
  have notTrue : "true".toList ≠ first :: run ++ type.text.toList :=
    fun equal => letter (by decide) (List.cons.inj equal).1.symm
  have notFalse : "false".toList ≠ first :: run ++ type.text.toList :=
    fun equal => letter (by decide) (List.cons.inj equal).1.symm
  have other : ¬ "aleo1".toList <+: first :: run ++ type.text.toList :=
    fun begins => letter (by decide) (List.cons_prefix_cons.mp begins).1.symm
  have noAddress : Rejects addressLiteral (spaced ((first :: run ++ type.text.toList) :: ts)) :=
    (rejects_literal (by decide) other).bind
  have reads : Accepts numberLiteral (first :: run ++ (type.text.toList ++ gap ts))
      (fun read => ∀ span, (read span).erase = .literal value type .none) (gap ts) := by
    refine (accepts_someOf members (numberText_head type _)).bind fun _ read => ?_
    refine (accepts_numberSuffix type ts number).bind fun _ sameType => ?_
    refine accepts_pure fun span => ?_
    rw [Expression.erase, read, sameType, ← same, String.ofList_toList]
  rw [← List.append_assoc] at reads
  refine (rejects_boolean separate notTrue notFalse).spanned.firstOf_tail ?_
  exact noAddress.spanned.firstOf_tail (Accepts.firstOf_head reads.spanned)

theorem accepts_string {value : String} (quoteless : '"' ∉ value.toList)
    (inner : Parser Expression) :
    Accepts (primary inner) (spaced (('"' :: value.toList ++ ['"']) :: ts))
      (·.erase = .literal value .string .none) (gap ts) := by
  have noBoolean (rest : List Char) : Rejects booleanLiteral ('"' :: rest) := fun _ => rfl
  have noAddress (rest : List Char) : Rejects addressLiteral ('"' :: rest) := fun _ => rfl
  have noNumber (rest : List Char) : Rejects numberLiteral ('"' :: rest) := fun _ => rfl
  have members : ∀ c ∈ value.toList, stringPart.contains c = true := by
    intro c member
    have other : c ≠ '"' := fun same => quoteless (same ▸ member)
    simp [stringPart, CharClass.contains]
    grind
  have reads : Accepts stringLiteral ("\"".toList ++ (value.toList ++ ("\"".toList ++ gap ts)))
      (fun read => ∀ span, (read span).erase = .literal value .string .none) (gap ts) := by
    refine (accepts_text "\"" _).bind fun _ _ => ?_
    refine (accepts_manyOf members (by rintro c ⟨⟩; decide)).bind fun _ read => ?_
    refine (accepts_text "\"" _).bind fun _ _ => ?_
    refine accepts_pure fun span => ?_
    rw [Expression.erase, read, String.ofList_toList]
  have whole : spaced (('"' :: value.toList ++ ['"']) :: ts) =
      "\"".toList ++ (value.toList ++ ("\"".toList ++ gap ts)) := by simp [spaced]
  rw [whole]
  refine (noBoolean _).spanned.firstOf_tail ((noAddress _).spanned.firstOf_tail ?_)
  exact (noNumber _).spanned.firstOf_tail (Accepts.firstOf_head reads.spanned)

theorem accepts_literalToken {value : String} {type : Primitive} (fits : type.Fits value)
    (inner : Parser Expression) :
    Accepts (primary inner) (spaced (type.literal value :: ts))
      (·.erase = .literal value type .none) (gap ts) := by
  cases type with
  | boolean =>
    intro position
    rcases fits with rfl | rfl <;> cases ts <;> exact ⟨_, _, rfl, rfl⟩
  | address =>
    obtain ⟨rest, same, nonempty, parts⟩ := fits
    exact accepts_address same nonempty parts inner
  | string => exact accepts_string fits inner
  | field => exact accepts_number fits (by simp) inner
  | group => exact accepts_number fits (by simp) inner
  | scalar => exact accepts_number fits (by simp) inner
  | integer type => exact accepts_number fits (by simp) inner

theorem wordStart_not_digit {c : Char} (start : wordStart.contains c = true) :
    digit.contains c = false := by
  rw [Bool.eq_false_iff]
  intro isDigit
  simp [digit, CharClass.contains] at isDigit
  simp [wordStart, CharClass.contains] at start
  rcases start with ⟨low, _⟩ | ⟨low, _⟩ | ⟨low, _⟩ <;>
    exact absurd (Char.le_trans low isDigit.2) (by decide)

theorem rejects_address {name : String} (free : ¬ StartsAddress name) :
    Rejects addressLiteral (spaced (name.toList :: ts)) := by
  by_cases begins : "aleo1".toList <+: name.toList
  · obtain ⟨more, same⟩ := begins
    rw [spaced, ← same, List.append_assoc]
    refine (accepts_text "aleo1" _).bind_rejects fun _ _ => Rejects.bind (Rejects.bind ?_)
    cases more with
    | nil =>
      intro position
      cases ts <;> rfl
    | cons c more =>
      refine rejects_oneOf ?_ _
      rw [Bool.eq_false_iff]
      exact fun part => free ⟨c, more, same.symm, part⟩
  · exact (rejects_literal (by decide) begins).bind

theorem accepts_var {name : String} (isName : IsName name) (free : ¬ StartsAddress name)
    (inner : Parser Expression) :
    Accepts (primary inner) (spaced (name.toList :: ts)) (·.erase = .var name .none) (gap ts) := by
  have run := IsWord.run isName.word
  obtain ⟨first, rest, same⟩ := List.exists_cons_of_ne_nil run.1
  have isWord := isName.word
  rw [same] at isWord
  have starts {c : Char} (other : wordStart.contains c = false) : first ≠ c := by
    rintro rfl
    rw [isWord.1] at other
    cases other
  refine (rejects_boolean run.separate (isName.ne_keyword (by decide))
    (isName.ne_keyword (by decide))).spanned.firstOf_tail ?_
  refine (rejects_address free).spanned.firstOf_tail ?_
  have noNumber : Rejects numberLiteral (spaced (name.toList :: ts)) := by
    rw [spaced, same]
    exact Rejects.bind (Rejects.bind (rejects_oneOf (wordStart_not_digit isWord.1) _))
  have noString : Rejects stringLiteral (spaced (name.toList :: ts)) := by
    refine Rejects.bind (rejects_literal (by decide) ?_)
    rw [same]
    exact fun begins => starts (by decide) (List.cons_prefix_cons.mp begins).1.symm
  refine noNumber.spanned.firstOf_tail (noString.spanned.firstOf_tail (Accepts.firstOf_head ?_))
  have wellFormed : Identifier.WellFormed ⟨name, .none⟩ := isName
  refine (accepts_identifier wellFormed ts).bind fun identifier sameName => ?_
  refine accepts_pure ?_
  rw [Expression.erase, show identifier.name = name from congrArg Identifier.name sameName]

end LeoFront.Grammar

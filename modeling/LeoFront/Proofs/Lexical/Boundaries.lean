import LeoFront.Proofs.Lexical.Names
import LeoFront.Proofs.Places.Expressions
import LeoFront.Proofs.Spacing.Derivations

/-!
# Reading from boundary to boundary

A name is read from where the parser stands to where the run of its characters ends. It is a whole word
of the source only if the parser does not stand inside a word. Every word ends at a boundary, blanks
keep it, and a symbol ends with a character that is in no word; only behind a literal, which may be an
address, more of a word can follow.

* `Leads` says where a parser ends and what it reads, if it begins at a boundary or anywhere.
* `leads_identifier` and `leads_type`: names are read as whole words, and no name of a type is a word
  for a primitive.
-/

namespace LeoFront
open LeoFront.Parser
open Grammar (wordPart Broken)

inductive Stand where
  | anywhere
  | boundary

variable {source : List Char} {cursor after : Cursor} {stand : Stand}

/-- A cursor stands in a source. At a boundary no word goes on from before it to behind it. -/
def Cursor.Stands (source : List Char) (stand : Stand) (cursor : Cursor) : Prop :=
  ∃ before, source = before ++ cursor.rest ∧ cursor.position = .behind before ∧
    match stand with
    | .anywhere => True
    | .boundary => (∀ c ∈ before.getLast?, Broken c) ∨ ∀ c ∈ cursor.rest.head?, Broken c

namespace Cursor.Stands

theorem on (stands : cursor.Stands source stand) : cursor.On source := by
  obtain ⟨before, whole, same, -⟩ := stands
  exact ⟨before, whole, same⟩

theorem of_on (on : cursor.On source) : cursor.Stands source .anywhere := by
  obtain ⟨before, whole, same⟩ := on
  exact ⟨before, whole, same, trivial⟩

theorem anywhere (stands : cursor.Stands source stand) : cursor.Stands source .anywhere :=
  of_on stands.on

theorem ofSource (source : List Char) : (Cursor.ofSource source).Stands source .boundary :=
  ⟨[], rfl, rfl, .inl (by simp)⟩

theorem before_broken (on : cursor.On source) (ends : ∀ c ∈ cursor.rest.head?, Broken c) :
    cursor.Stands source .boundary := by
  obtain ⟨before, whole, same⟩ := on
  exact ⟨before, whole, same, .inr ends⟩

theorem behind_broken {text : List Char} (on : cursor.On source) (reaches : cursor.Reaches after)
    (read : cursor.rest = text ++ after.rest) (nonempty : text ≠ [])
    (ends : ∀ c ∈ text.getLast?, Broken c) : after.Stands source .boundary := by
  obtain ⟨before, whole, same⟩ := on
  obtain ⟨text', read', moved⟩ := reaches
  obtain rfl : text = text' := List.append_cancel_right (read.symm.trans read')
  refine ⟨before ++ text, by rw [whole, read, List.append_assoc], ?_, .inl ?_⟩
  · rw [moved, same, Position.behind_append]
  · rwa [List.getLast?_append_of_ne_nil _ nonempty]

end Cursor.Stands

theorem Parser.or_failed {α : Type} {p q : Parser α} {value : α}
    (read : (p.or q cursor).result = some (value, after)) :
    (p cursor).result = some (value, after) ∨
      (p cursor).result = none ∧ (q cursor).result = some (value, after) := by
  rw [result_or] at read
  cases first : (p cursor).result with
  | none => exact .inr ⟨rfl, by simpa [first] using read⟩
  | some success => exact .inl (by simpa [first] using read)

/-- From a place in a source a parser only leads to values of a kind, and to places of a kind. -/
def Leads {α : Type} (source : List Char) (stand : Stand) (p : Parser α) (good : α → Prop)
    (final : Stand) : Prop :=
  ∀ cursor value after, cursor.Stands source stand → (p cursor).result = some (value, after) →
    good value ∧ after.Stands source final

namespace Leads
variable {α β : Type} {p q : Parser α} {next : α → Parser β} {good better : α → Prop}
  {fine : β → Prop} {middle final : Stand}

theorem pure {value : α} (known : good value) :
    Leads source stand (Pure.pure value : Parser α) good stand := by
  intro cursor _ _ stands read
  cases read
  exact ⟨known, stands⟩

theorem fail : Leads source stand (Parser.fail : Parser α) good final := by
  intro _ _ _ _ read
  cases read

theorem bind (first : Leads source stand p good middle)
    (onward : ∀ value, good value → Leads source middle (next value) fine final) :
    Leads source stand (p >>= next) fine final := by
  intro cursor value after stands read
  obtain ⟨head, between, here, read⟩ := bind_some.mp read
  obtain ⟨known, stands⟩ := first cursor head between stands here
  exact onward head known between value after stands read

theorem skip (first : Leads source stand p (fun _ => True) middle)
    (onward : ∀ value, Leads source middle (next value) fine final) :
    Leads source stand (p >>= next) fine final :=
  first.bind fun value _ => onward value

theorem or (first : Leads source stand p good final) (second : Leads source stand q good final) :
    Leads source stand (p.or q) good final := by
  intro cursor value after stands read
  rcases or_some read with here | here
  · exact first cursor value after stands here
  · exact second cursor value after stands here

theorem imp (leads : Leads source stand p good final) (implied : ∀ value, good value → better value) :
    Leads source stand p better final := by
  intro cursor value after stands read
  obtain ⟨known, ends⟩ := leads cursor value after stands read
  exact ⟨implied value known, ends⟩

theorem to_anywhere (leads : Leads source stand p good final) :
    Leads source stand p good .anywhere := by
  intro cursor value after stands read
  obtain ⟨known, ends⟩ := leads cursor value after stands read
  exact ⟨known, ends.anywhere⟩

theorem optional (leads : Leads source stand p good stand) :
    Leads source stand (Parser.optional p) (fun value => ∀ known ∈ value, good known) stand :=
  .or (.bind leads fun _ known => .pure (by simpa using known)) (.pure (by simp))

theorem many (leads : Leads source stand p good stand) :
    Leads source stand (Parser.many p) (fun values => ∀ value ∈ values, good value) stand := by
  have within (bound : List Char) : Leads source stand (manyWithin p bound)
      (fun values => ∀ value ∈ values, good value) stand := by
    induction bound with
    | nil => exact .pure (by simp)
    | cons _ bound ih =>
      refine .or (.bind leads fun first known => .bind ih fun rest others => .pure ?_) (.pure ?_)
      · exact List.forall_mem_cons.mpr ⟨known, others⟩
      · simp
  exact fun cursor => within cursor.bound cursor

theorem spanned {p : Parser (Span → α)}
    (leads : Leads source stand p (fun make => ∀ span, good (make span)) final) :
    Leads source stand (Parser.spanned p) good final := by
  intro cursor value after stands read
  obtain ⟨make, inner, rfl⟩ := spanned_some.mp read
  obtain ⟨known, ends⟩ := leads cursor make after stands inner
  exact ⟨known _, ends⟩

theorem bounded {within : List Char → Parser α}
    (leads : ∀ bound, Leads source stand (within bound) good final) :
    Leads source stand (Parser.bounded within) good final :=
  fun cursor => leads cursor.bound cursor

end Leads

namespace Grammar
variable {α : Type} {p : Parser α}

theorem leads_token [Advances p] : Leads source stand p (fun _ => True) .anywhere := by
  intro cursor value after stands read
  exact ⟨trivial, .of_on (stands.on.reaches (Advances.reaches _ _ _ read))⟩

theorem leads_word [Advances p] (reads : ReadsWord p) :
    Leads source stand p (fun _ => True) .boundary := by
  intro cursor value after stands read
  obtain ⟨-, -, -, -, ends⟩ := reads cursor value after read
  exact ⟨trivial, .before_broken (stands.on.reaches (Advances.reaches _ _ _ read)) ends⟩

abbrev Symbols (texts : List String) : Prop :=
  ∀ text ∈ texts, text.toList ≠ [] ∧ ∀ c ∈ text.toList.getLast?, Broken c

theorem leads_symbol [Advances p] {texts : List String} (reads : ReadsOneOf p texts)
    (symbols : Symbols texts) : Leads source stand p (fun _ => True) .boundary := by
  intro cursor value after stands read
  obtain ⟨text, member, written⟩ := reads cursor value after read
  obtain ⟨nonempty, ends⟩ := symbols text member
  exact ⟨trivial, .behind_broken stands.on (Advances.reaches _ _ _ read) written nonempty ends⟩

theorem leads_literal {text : String} (symbols : Symbols [text]) :
    Leads source stand (literal text) (fun _ => True) .boundary :=
  leads_symbol (readsOneOf_literal (List.mem_singleton_self _)) symbols

theorem Spacing.ends {gap : List Char} (spacing : Spacing gap) : ∀ c ∈ gap.getLast?, Broken c := by
  have blanks (c : Char) (blank : isBlank c = true) : Broken c := by
    by_contra part
    have visible := (wordPart_visible (by simpa [Broken] using part)).1
    rw [blank] at visible
    cases visible
  have slash : Broken '/' := by decide
  have newline : Broken '\n' := by decide
  induction spacing with
  | nil => simp
  | @blank c rest blank _ ih =>
    cases rest with
    | nil => simpa using blanks c blank
    | cons _ _ => simpa using ih
  | @line text rest _ _ ih =>
    cases rest with
    | nil => simpa [List.getLast?_cons] using newline
    | cons _ _ => simpa [List.getLast?_cons, List.getLast?_append] using ih
  | @block text rest _ _ ih =>
    cases rest with
    | nil => simpa [List.getLast?_cons] using slash
    | cons _ _ => simpa [List.getLast?_cons, List.getLast?_append] using ih

theorem leads_blanks : Leads source stand blanks (fun _ => True) stand := by
  intro cursor value after stands read
  refine ⟨trivial, ?_⟩
  have reaches := Advances.reaches _ _ _ read
  cases stand with
  | anywhere => exact .of_on (stands.on.reaches reaches)
  | boundary =>
    cases read
    obtain ⟨gap, rest, whole, run, skipped⟩ := exists_skipped cursor.rest
    have left : (cursor.skip (blankRun cursor.rest)).rest = rest := by
      rw [Cursor.skip, run, whole, List.drop_left]
    by_cases nothing : gap = []
    · have same : cursor.skip (blankRun cursor.rest) = cursor := by
        simp [run, nothing, Cursor.skip]
      rwa [same]
    by_cases last : rest = []
    · exact .before_broken (stands.on.reaches reaches) (by simp [left, last])
    · exact .behind_broken stands.on reaches (by rw [left, whole]) nothing (skipped.spacing last).ends

theorem identifier_ok {identifier : Identifier}
    (read : (Grammar.identifier cursor).result = some (identifier, after)) :
    IsName identifier.name ∧ cursor.rest = identifier.name.toList ++ after.rest ∧
      identifier.span = ⟨cursor.position, after.position⟩ ∧ ∀ c ∈ after.rest.head?, Broken c := by
  obtain ⟨make, inner, rfl⟩ := spanned_some.mp read
  obtain ⟨_, unmoved, unreserved, inner⟩ := bind_some.mp inner
  obtain ⟨first, middle, here, inner⟩ := bind_some.mp inner
  obtain ⟨rest, _, onward, inner⟩ := bind_some.mp inner
  cases inner
  obtain ⟨parts, ends⟩ := manyOf_ends onward
  have text : (String.ofList (first :: rest)).toList = first :: rest := String.toList_ofList
  unfold guardRest at unreserved
  split at unreserved
  · rename_i free
    cases unreserved
    -- the word that must not be reserved is the one that is read
    have leading : leadingWord cursor.rest = first :: rest := by
      cases onward
      rw [oneOf_rest here, leadingWord, if_pos (oneOf_contains here)]
    refine ⟨⟨?_, ?_⟩, ?_, rfl, ends⟩
    · rw [text]
      exact ⟨oneOf_contains here, parts⟩
    · simpa [leading] using free
    · rw [text, oneOf_rest here, manyOf_rest onward, List.cons_append]
  · cases unreserved

theorem leads_identifier :
    Leads source .boundary identifier (fun identifier => identifier.Whole source) .boundary := by
  intro cursor identifier after stands read
  obtain ⟨isName, written, span, ends⟩ := identifier_ok read
  have reaches := Advances.reaches _ _ _ read
  refine ⟨⟨isName, ?_⟩, .before_broken (stands.on.reaches reaches) ends⟩
  obtain ⟨before, whole, same, boundary⟩ := stands
  obtain ⟨text, read, moved⟩ := reaches
  obtain rfl := List.append_cancel_right (written.symm.trans read)
  refine ⟨before, after.rest, by rw [whole, written], ?_, ?_, ends⟩
  · rw [span, moved, same, Position.behind_append]
  -- the name begins with a character of a word, so none stands before it
  · rcases boundary with apart | broken
    · exact apart
    · obtain ⟨first, rest, text⟩ := List.exists_cons_of_ne_nil isName.word.run.1
      have part := isName.word.run.2 first (by rw [text]; exact List.mem_cons_self)
      rw [broken first (by rw [written, text]; rfl)] at part
      cases part

theorem type_ok {type : Ty} (read : (Grammar.type cursor).result = some (type, after)) :
    (∃ primitive, type = .primitive primitive) ∨
      ∃ name, type = .named name ∧ (identifier cursor).result = some (name, after) := by
  rcases or_some read with word | read
  · obtain ⟨primitive, _, _, made⟩ := bind_some.mp word
    cases made
    exact .inl ⟨primitive, rfl⟩
  rcases or_some read with integer | read
  · obtain ⟨primitive, _, _, made⟩ := bind_some.mp integer
    cases made
    exact .inl ⟨primitive, rfl⟩
  rcases or_some read with named | none
  · obtain ⟨name, _, here, made⟩ := bind_some.mp named
    cases made
    exact .inr ⟨name, rfl, here⟩
  · cases none

theorem type_wellFormed {type : Ty} (read : (Grammar.type cursor).result = some (type, after)) :
    type.WellFormed := by
  rcases type_ok read with ⟨primitive, rfl⟩ | ⟨name, rfl, here⟩
  · trivial
  obtain ⟨isName, written, -, broken⟩ := identifier_ok here
  refine ⟨isName, fun primitive same => ?_⟩
  obtain ⟨_, position, other, rfl⟩ := accepts_primitiveText primitive broken cursor.position
  rw [same, ← written] at other
  cases read.symm.trans other

theorem leads_type :
    Leads source .boundary type (Sound source Ty.WellFormed Ty.names) .boundary := by
  intro cursor type after stands read
  obtain ⟨-, ends⟩ := leads_word readsWord_type cursor type after stands read
  refine ⟨⟨type_wellFormed read, ?_⟩, ends⟩
  rcases type_ok read with ⟨primitive, rfl⟩ | ⟨name, rfl, here⟩
  · simp [Ty.names]
  · obtain ⟨whole, -⟩ := leads_identifier cursor name after stands here
    simpa [Ty.names] using whole

end Grammar

end LeoFront

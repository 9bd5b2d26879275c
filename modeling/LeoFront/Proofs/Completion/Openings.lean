import LeoFront.Proofs.Completion.Expressions

namespace LeoFront.Grammar
open LeoFront.Parser
variable {α β : Type} {p q : Parser α} {openers others : List String} {text rest : List Char}

def opener (text : List Char) : List Char :=
  if leadingWord text = [] then text.take 1 else leadingWord text

abbrev BeginsWith (openers : List String) : Parser α → Prop :=
  Begins fun text => String.ofList (opener text) ∈ openers

abbrev BeginsWithout (openers : List String) : Parser α → Prop :=
  Begins fun text => String.ofList (opener text) ∉ openers

theorem head_opener (text : List Char) : (opener text).head? = text.head? := by
  cases text with
  | nil => rfl
  | cons c rest =>
    rw [opener, leadingWord]
    split <;> simp

theorem opener_word (word : IsWord text) (ends : ∀ c ∈ rest.head?, wordPart.contains c = false) :
    opener (text ++ rest) = text := by
  rw [opener, leadingWord_append word ends, if_neg word.run.1]

theorem opener_mark {c : Char} (other : wordStart.contains c = false) (rest : List Char) :
    opener (c :: rest) = [c] := by
  simp [opener, leadingWord, other]

theorem Closed.opener {closer : String} {c : Char} (closes : Closed closer text)
    (single : closer.toList = [c]) (other : wordStart.contains c = false) :
    String.ofList (opener text) = closer := by
  obtain ⟨rest, rfl⟩ := closes
  rw [single, List.singleton_append, opener_mark other, ← single, String.ofList_toList]

namespace Begins

theorem without (begins : BeginsWith openers p) (apart : ∀ text ∈ openers, text ∉ others) :
    BeginsWithout others p :=
  begins.mono fun _ => apart _

theorem fewer (begins : BeginsWithout openers p) (among : ∀ text ∈ others, text ∈ openers) :
    BeginsWithout others p :=
  begins.mono fun _ other member => other (among _ member)

theorem told {second : Parser β} {cursor after : Cursor} {value : β} (first : BeginsWith openers p)
    (otherwise : BeginsWithout openers second)
    (read : (second cursor).result = some (value, after)) : (p cursor).result = Option.none :=
  first.rejects (otherwise _ _ _ read) cursor.position

theorem rejects_closed {closer : String} {c : Char} (begins : BeginsWithout [closer] p)
    (single : closer.toList = [c]) (other : wordStart.contains c = false) (text : List Char)
    (closes : Closed closer text) : Rejects p text :=
  begins.rejects (not_not_intro (List.mem_singleton.mpr (closes.opener single other)))

theorem of_heads {heads : Char → Prop} (begins : Heads heads p)
    (apart : ∀ text ∈ openers, ∀ c ∈ text.toList.head?, ¬ heads c) : BeginsWithout openers p := by
  intro cursor value after read member
  obtain ⟨c, head, known⟩ := begins _ _ _ read
  refine apart _ member c ?_ known
  rwa [String.toList_ofList, head_opener]

end Begins

theorem begins_oneWord {choices : List (String × α)} (words : ∀ choice ∈ choices, IsWord choice.1.toList) :
    BeginsWith (choices.map (·.1)) (oneWord choices) := by
  intro cursor value after read
  obtain ⟨choice, member, -, written⟩ := oneWord_rest read
  obtain ⟨_, _, -, read⟩ := bind_some.mp read
  obtain ⟨_, _, ends, read⟩ := bind_some.mp read
  cases read
  rw [written, opener_word (words choice member) (wordEnd_ends ends).2, String.ofList_toList]
  exact List.mem_map_of_mem member

theorem begins_word {text : String} (isWord : IsWord text.toList) : BeginsWith [text] (word text) := by
  intro cursor value after read
  obtain ⟨_, middle, here, ends⟩ := bind_some.mp read
  obtain ⟨same, ends⟩ := wordEnd_ends ends
  rw [literal_rest here, same, opener_word isWord ends, String.ofList_toList]
  exact List.mem_singleton_self _

theorem begins_mark {mark : String} {c : Char} (single : mark.toList = [c])
    (other : wordStart.contains c = false) : BeginsWith [mark] (literal mark) := by
  intro cursor value after read
  have closes : Closed mark cursor.rest := ⟨_, (literal_rest read).symm⟩
  exact List.mem_singleton.mpr (closes.opener single other)

theorem begins_identifier (apart : ∀ text ∈ openers,
    text ∈ keywords ∨ ∀ c ∈ text.toList.head?, wordStart.contains c = false) :
    BeginsWithout openers identifier := by
  intro cursor value after read member
  have start := heads_identifier _ _ _ read
  obtain ⟨c, head, start⟩ := start
  obtain ⟨_, inner, -⟩ := spanned_some.mp read
  obtain ⟨_, _, guarded, -⟩ := bind_some.mp inner
  obtain ⟨free, -⟩ := guardRest_some guarded
  have nonempty : leadingWord cursor.rest ≠ [] := by
    obtain ⟨rest, same⟩ := List.head?_eq_some_iff.mp head
    simp [same, leadingWord, start]
  have same : opener cursor.rest = leadingWord cursor.rest := if_neg nonempty
  rcases apart _ member with keyword | mark
  · rw [same] at keyword
    simp [keyword] at free
  · rw [String.toList_ofList, head_opener] at mark
    rw [mark c head] at start
    cases start

/-- What is tried behind alternatives with certain openers: it reads no text with one of them. -/
structure Later (C : Comparison) (P : Place) (openers : List String) (p q : Parser α) (Q : Place) :
    Prop where
  viable : Viable C P p q Unasked Q
  begins : BeginsWithout openers q

theorem Later.or [Nonempty α] {C : Comparison} {P Q : Place} {p' q' : Parser α}
    (first : Viable C P p q Unasked Q) (begins : BeginsWith openers q)
    (apart : ∀ text ∈ openers, text ∉ others) (second : Later C P (openers ++ others) p' q' Q) :
    Later C P others (p.or p') (q.or q') Q where
  viable := first.or second.viable fun _ taken _ => begins.told
    (second.begins.fewer fun _ member => List.mem_append_left _ member) taken
  begins := .or (begins.without apart)
    (second.begins.fewer fun _ member => List.mem_append_right _ member)

def statementOpeners : List String :=
  ["return", "let", "const", "if", "for", "console", "else", "\x7b", "\x7d"]

theorem begins_unaryOver (inner : Parser Expression) :
    BeginsWithout statementOpeners (unaryOver inner) := by
  have sign : Heads (· ∈ ['!', '-']) (oneText [("!", UnaryOp.not), ("-", .negate)]) :=
    heads_oneText (by decide)
  have boolean : BeginsWith ["true", "false"] (oneWord [("true", "true"), ("false", "false")]) :=
    begins_oneWord (by decide)
  have address : Heads (· = 'a') (literal "aleo1") := heads_literal rfl
  have name : BeginsWithout statementOpeners identifier := begins_identifier (by decide)
  refine .or (sign.of_heads (by decide)).bind.spanned (.or (.bind (.or ?_ (.or ?_ (.or ?_ (.or ?_
    (.or name.bind (.or ?_ .fail))))))) .fail)
  · exact (boolean.without (by decide)).bind.spanned
  · exact (address.of_heads (by decide)).bind.spanned
  · exact (heads_numberLiteral.of_heads (by decide)).spanned
  · exact (heads_stringLiteral.of_heads (by decide)).spanned
  · exact heads_wrapped.of_heads (by decide)

theorem begins_expression : BeginsWithout statementOpeners expression := by
  have operands : BeginsWithout statementOpeners unary := by
    intro cursor value after read
    rw [← result_unary] at read
    exact begins_unaryOver unary _ _ _ read
  intro cursor value after read
  rw [← result_expression] at read
  exact begins_chains operands 6 _ _ _ read

end LeoFront.Grammar

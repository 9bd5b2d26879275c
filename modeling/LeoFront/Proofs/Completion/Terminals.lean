import LeoFront.Proofs.Completion.Combinators
import LeoFront.Proofs.Spacing.Derivations

namespace LeoFront.Grammar
open LeoFront.Parser
open Text (units16)
variable {α β : Type} {C : Comparison} {P Q : Place} {good better : List Char → Prop}
  {text rest rest' : List Char} {c : Char}

namespace Place

structure Behind (Q : Place) : Prop where
  bare : Q.bare = false
  stands : ∀ rest, Q.Stands rest

theorem behind_loose : (loose good).Behind := ⟨rfl, fun _ => trivial⟩

theorem behind_inside : (inside false good).Behind := ⟨rfl, fun _ => trivial⟩

structure Leads (P : Place) (text : List Char) (Q : Place) : Prop where
  relates : ∀ {rest rest'}, Q.Relates rest rest' → P.Relates (text ++ rest) (text ++ rest')
  fresh : ∀ {rest}, Q.Fresh rest → P.Fresh (text ++ rest)
  anew : P.bare = false → ∀ {other rest}, Q.Fresh rest → P.Relates other (text ++ rest)

def Visible (text : List Char) : Prop := ∃ c ∈ text.head?, isBlank c = false ∧ c ≠ '/'

instance (text : List Char) : Decidable (Visible text) :=
  inferInstanceAs (Decidable (∃ c ∈ text.head?, _))

theorem Visible.bare (visible : Visible text) (rest : List Char) : blankRun (text ++ rest) = 0 := by
  obtain ⟨c, head, visible, slash⟩ := visible
  obtain ⟨text, rfl⟩ := List.head?_eq_some_iff.mp head
  exact blankRun_visible visible slash

theorem Visible.head (visible : Visible text) (rest : List Char) :
    (text ++ rest).head? = text.head? := by
  obtain ⟨c, head, -⟩ := visible
  rw [List.head?_append, head]
  rfl

theorem leads_solid (visible : Visible text) (opens : ∀ rest, Q.Allows rest → good (text ++ rest)) :
    (solid good).Leads text Q where
  relates related := ⟨⟨visible.bare _, opens _ (Q.allows_of_relates related)⟩, by
    rw [visible.head, visible.head]⟩
  fresh fresh := ⟨visible.bare _, opens _ (Q.allows_of_fresh fresh)⟩
  anew := nofun

theorem leads_inside {bare : Bool} (opens : ∀ rest, Q.Allows rest → good (text ++ rest)) :
    (inside bare good).Leads text Q where
  relates related := opens _ (Q.allows_of_relates related)
  fresh fresh := opens _ (Q.allows_of_fresh fresh)
  anew _ _ _ fresh := opens _ (Q.allows_of_fresh fresh)

end Place

structure FailsAtStart (p : Parser α) : Prop where
  honest : ∀ cursor, Honest (p cursor).furthest
  start : ∀ {cursor offset}, Noted (p cursor).furthest offset → offset = cursor.position.offset

theorem FailsAtStart.of_one {p : Parser α} (starts : ∀ cursor, (p cursor).furthest = .none ∨
    ∃ expectation, (p cursor).furthest = .one cursor.position.offset expectation) :
    FailsAtStart p := by
  constructor
  · intro cursor
    rcases starts cursor with nothing | ⟨_, start⟩
    · rw [nothing]
      exact honest_none
    · rw [start]
      exact honest_one _ _
  · intro cursor offset noted
    rcases starts cursor with nothing | ⟨_, start⟩
    · rw [nothing] at noted
      exact absurd rfl noted.1
    · rw [start] at noted
      exact noted.2.symm

namespace FailsAtStart
variable {p q : Parser α} {next : α → Parser β}

theorem fail : FailsAtStart (fail : Parser α) := .of_one fun _ => .inl rfl

theorem or (first : FailsAtStart p) (second : FailsAtStart q) : FailsAtStart (p.or q) := by
  have furthest (cursor : Cursor) : (p.or q cursor).furthest = (p cursor).furthest ∨
      (p.or q cursor).furthest = (p cursor).furthest.merge (q cursor).furthest := by
    unfold Parser.or
    rcases p cursor with ⟨_ | success, furthest⟩
    · exact .inr rfl
    · exact .inl rfl
  constructor
  · intro cursor
    rcases furthest cursor with same | same <;> rw [same]
    · exact first.honest cursor
    · exact (first.honest cursor).merge (second.honest cursor)
  · intro cursor offset noted
    rcases furthest cursor with same | same <;> rw [same] at noted
    · exact first.start noted
    · exact noted.of_merge.elim first.start fun noted => second.start noted.1

theorem bind (first : FailsAtStart p)
    (silent : ∀ value cursor, (next value cursor).furthest = .none) : FailsAtStart (p >>= next) := by
  have furthest (cursor : Cursor) : ((p >>= next) cursor).furthest = (p cursor).furthest := by
    rcases here : (p cursor).result with _ | ⟨value, after⟩
    · rw [bind_of_none here]
    · rw [bind_of_some here, silent, Furthest.merge_none]
  constructor
  · intro cursor
    rw [furthest]
    exact first.honest cursor
  · intro cursor offset noted
    rw [furthest] at noted
    exact first.start noted

end FailsAtStart

theorem sampled_leaf {p : Parser α} [Advances p] {sample : List Char} (behind : Q.Behind)
    (starts : FailsAtStart p)
    (again : ∀ {position text value rest}, P.Stands (text ++ rest) →
      Takes p position text value rest → ∀ position' rest', Q.Relates rest rest' →
        P.Relates (text ++ rest) (text ++ rest') ∧ Takes p position' text value rest')
    (leads : P.Leads sample Q)
    (reads : ∀ position rest, Q.Fresh rest → ∃ value, Takes p position sample value rest) :
    Sampled C P sample p p (· = ·) Q := by
  refine ⟨⟨Advances.reaches _ _ _, starts.honest, ?_, ?_, ?_⟩, fun rest fresh =>
    ⟨leads.fresh fresh, fun position => reads position rest fresh⟩⟩
  · intro position text value rest _ taken
    exact ⟨behind.stands rest, fun bare => by rw [behind.bare] at bare; cases bare⟩
  · intro position text value rest position' stands taken _
    refine ⟨value, fun rest' related => ?_⟩
    obtain ⟨related, taken⟩ := again stands taken position' rest' related
    exact ⟨related, taken, rfl⟩
  · intro position text offset position' _ noted _
    obtain rfl := starts.start noted
    by_cases bare : P.bare = true
    · exact .inl ⟨bare, rfl⟩
    · exact .inr ⟨[], text, sample, rfl, rfl, fun rest fresh =>
        ⟨leads.anew (by simpa using bare) fresh, reads position' rest fresh⟩⟩

theorem failsAtStart_literal {text : String} : FailsAtStart (literal text) := by
  refine .of_one fun cursor => ?_
  unfold literal
  split
  · exact .inl rfl
  · exact .inr ⟨_, rfl⟩

theorem failsAtStart_oneText {choices : List (String × α)} : FailsAtStart (oneText choices) := by
  unfold oneText
  induction choices with
  | nil => exact .fail
  | cons choice choices ih => exact (failsAtStart_literal.bind fun _ _ => rfl).or ih

theorem takes_literal (text : String) (position : Position) (rest : List Char) :
    Takes (literal text) position text.toList () rest := by
  rw [Takes, literal_result rfl]
  simp [Cursor.skip]

theorem sampled_literal {text : String} (leads : P.Leads text.toList Q) (behind : Q.Behind) :
    Sampled C P text.toList (literal text) (literal text) (· = ·) Q := by
  refine sampled_leaf behind failsAtStart_literal ?_ leads
    fun position rest _ => ⟨(), takes_literal text position rest⟩
  intro position read value rest _ taken position' rest' related
  obtain rfl : read = text.toList := List.append_cancel_right (literal_rest taken)
  exact ⟨leads.relates related, takes_literal text position' rest'⟩

theorem takes_oneOf {set : CharClass} (member : set.contains c = true) (position : Position)
    (rest : List Char) : Takes (oneOf set) position [c] c rest := by
  simp [Takes, oneOf, member, Cursor.skip]

theorem failsAtStart_oneOf {set : CharClass} : FailsAtStart (oneOf set) := by
  refine .of_one fun cursor => ?_
  unfold oneOf
  split
  · split
    · exact .inl rfl
    · exact .inr ⟨_, rfl⟩
  · exact .inr ⟨_, rfl⟩

theorem sampled_oneOf {set : CharClass} (member : set.contains c = true)
    (leads : ∀ c, set.contains c = true → P.Leads [c] Q) (behind : Q.Behind) :
    Sampled C P [c] (oneOf set) (oneOf set) (· = ·) Q := by
  refine sampled_leaf behind failsAtStart_oneOf ?_ (leads c member)
    fun position rest _ => ⟨c, takes_oneOf member position rest⟩
  intro position read value rest _ taken position' rest' related
  have member := oneOf_contains taken
  obtain rfl : read = [value] := List.append_cancel_right (oneOf_rest taken)
  exact ⟨(leads value member).relates related, takes_oneOf member position' rest'⟩

theorem takeWhile_run {set : CharClass} {run : List Char}
    (members : ∀ c ∈ run, set.contains c = true)
    (stop : ∀ c ∈ rest.head?, set.contains c = false) : (run ++ rest).takeWhile set.contains = run := by
  rw [List.takeWhile_append_of_pos members]
  cases rest with
  | nil => simp
  | cons c rest => simp [stop c rfl]

theorem takes_manyOf {set : CharClass} {run : List Char} {position : Position}
    (members : ∀ c ∈ run, set.contains c = true)
    (stop : ∀ c ∈ rest.head?, set.contains c = false) : Takes (manyOf set) position run run rest := by
  simp [Takes, manyOf, takeWhile_run members stop, Cursor.skip]

theorem manyOf_offset (set : CharClass) (cursor : Cursor) :
    (manyOf set cursor).furthest.offset =
      cursor.position.offset + units16 (cursor.rest.takeWhile set.contains) := by
  have run : cursor.rest.takeWhile set.contains = cursor.rest.take _ :=
    List.prefix_iff_eq_take.mp (List.takeWhile_prefix set.contains)
  simp only [manyOf, Furthest.one, Cursor.skip, Position.after_offset, ← run]

theorem sampled_manyOf {set : CharClass} (stands : ∀ rest, Q.Stands rest)
    (stays : ∀ {rest rest'}, Q.Relates rest rest' → (∀ c ∈ rest.head?, set.contains c = false) →
      ∀ c ∈ rest'.head?, set.contains c = false)
    (stops : ∀ {rest}, Q.Fresh rest → ∀ c ∈ rest.head?, set.contains c = false) :
    Sampled C (.inside false fun _ => True) [] (manyOf set) (manyOf set) (· = ·) Q := by
  refine ⟨⟨Advances.reaches _ _ _, fun cursor => honest_one _ _, ?_, ?_, ?_⟩, fun rest fresh =>
    ⟨trivial, fun position => ⟨[], takes_manyOf (by simp) (stops fresh)⟩⟩⟩
  · intro position text run rest _ taken
    refine ⟨stands rest, fun _ => .inr ?_⟩
    have after := congrArg (fun read => read.2.position) (Option.some.inj taken)
    exact ⟨nofun, Nat.le_of_eq (congrArg Position.offset after).symm⟩
  · intro position text run rest position' _ taken _
    obtain rfl : text = run := List.append_cancel_right (manyOf_rest taken)
    obtain ⟨members, ends⟩ := manyOf_ends taken
    exact ⟨text, fun rest' related =>
      ⟨trivial, takes_manyOf members (stays related ends), rfl⟩⟩
  · intro position text offset position' _ noted _
    refine .inr ⟨text.takeWhile set.contains, text.dropWhile set.contains, [],
      List.takeWhile_append_dropWhile.symm, ?_, fun rest fresh =>
        ⟨trivial, text.takeWhile set.contains, ?_⟩⟩
    · rw [← noted.2, manyOf_offset]
    · rw [List.append_nil]
      exact takes_manyOf (fun c => List.mem_takeWhile_imp) (stops fresh)

theorem BeginsLike.head {set : CharClass} (like : BeginsLike rest rest')
    (blanks : ∀ c, isBlank c = true → set.contains c = false)
    (ends : ∀ c ∈ rest.head?, set.contains c = false) : ∀ c ∈ rest'.head?, set.contains c = false := by
  rcases like with same | blank
  · rw [same]
    exact ends
  · exact fun c head => blanks c (blank c head)

theorem guardRest_furthest (condition : List Char → Bool) (cursor : Cursor) :
    (guardRest condition cursor).furthest = .none := by
  unfold guardRest
  split <;> rfl

theorem honest_guardRest {condition : List Char → Bool} (cursor : Cursor) :
    Honest (guardRest condition cursor).furthest := by
  rw [guardRest_furthest]
  exact honest_none

theorem sampled_guardRest {condition : List Char → Bool} (empty : condition [] = true)
    (stays : ∀ {rest rest'}, condition rest = true → BeginsLike rest rest' → condition rest' = true) :
    Sampled C (.loose good) [] (guardRest condition) (guardRest condition) (· = ·) (.loose good) := by
  have holds (position : Position) {rest : List Char} (known : condition rest = true) :
      Takes (guardRest condition) position [] () rest := by
    simp [Takes, guardRest, known]
  have newline (rest : List Char) (begins : rest.head? = some '\n') : condition rest = true := by
    refine stays empty (.inr fun c head => ?_)
    rw [begins] at head
    cases head
    rfl
  refine ⟨⟨Advances.reaches _ _ _, honest_guardRest,
      fun _ _ => ⟨trivial, (absurd · Bool.false_ne_true)⟩, ?_, ?_⟩,
    fun rest fresh => ⟨fresh, fun position => ⟨(), holds position (newline rest fresh.2)⟩⟩⟩
  · intro position text _ rest position' _ taken _
    obtain rfl : text = [] := List.append_left_eq_self.mp (guardRest_rest taken)
    have known : condition rest = true := by
      by_contra other
      simp [Takes, guardRest, other] at taken
    exact ⟨(), fun rest' related => ⟨related, holds position' (stays known related.2), rfl⟩⟩
  · intro position text offset position' _ noted _
    rw [guardRest_furthest] at noted
    exact absurd rfl noted.1

theorem not_wordPart_blank (c : Char) (blank : isBlank c = true) : wordPart.contains c = false := by
  by_contra part
  rw [(wordPart_visible (by simpa using part)).1] at blank
  cases blank

theorem sampled_wordEnd :
    Sampled C (.loose good) [] wordEnd wordEnd (· = ·) (.loose good) := by
  refine sampled_guardRest rfl fun {rest rest'} known like => ?_
  have ends : ∀ c ∈ rest.head?, wordPart.contains c = false := by
    intro c head
    simpa [Option.mem_def.mp head] using known
  have ends' := like.head not_wordPart_blank ends
  cases rest' with
  | nil => rfl
  | cons c rest' => simp [ends' c rfl]

def Begins (good : List Char → Prop) (p : Parser α) : Prop :=
  ∀ cursor value after, (p cursor).result = some (value, after) → good cursor.rest

abbrev Heads (heads : Char → Prop) : Parser α → Prop :=
  Begins fun text => ∃ c ∈ text.head?, heads c

namespace Begins
variable {p q : Parser α}

theorem mono (begins : Begins good p) (implied : ∀ text, good text → better text) :
    Begins better p :=
  fun cursor value after read => implied _ (begins cursor value after read)

theorem bind {next : α → Parser β} (begins : Begins good p) : Begins good (p >>= next) := by
  intro cursor value after read
  obtain ⟨_, _, here, -⟩ := bind_some.mp read
  exact begins _ _ _ here

theorem or (first : Begins good p) (second : Begins good q) : Begins good (p.or q) :=
  fun cursor value after read =>
    (or_some read).elim (first cursor value after) (second cursor value after)

theorem fail : Begins good (fail : Parser α) := nofun

theorem optional {next : Option α → Parser β} (first : Begins good p)
    (others : Begins good (next none)) : Begins good (Parser.optional p >>= next) := by
  intro cursor value after read
  rw [optional_bind] at read
  rcases here : (p cursor).result with _ | ⟨head, middle⟩
  · rw [commit_none here] at read
    exact others _ _ _ read
  · exact first _ _ _ here

theorem spanned {p : Parser (Span → α)} (begins : Begins good p) : Begins good (spanned p) := by
  intro cursor value after read
  obtain ⟨_, here, -⟩ := spanned_some.mp read
  exact begins _ _ _ here

theorem rejects (begins : Begins good p) (other : ¬ good text) : Rejects p text := by
  intro position
  rcases read : (p ⟨text, position⟩).result with _ | ⟨value, after⟩
  · rfl
  · exact absurd (begins _ _ _ read) other

section
variable {heads heads' : Char → Prop} (first : Begins (fun text => ∃ c ∈ text.head?, heads c) p)
include first

theorem widen (implied : ∀ c, heads c → heads' c) : Heads heads' p :=
  first.mono fun _ => fun ⟨c, head, known⟩ => ⟨c, head, implied c known⟩

theorem outside (outside : ∀ c ∈ text.head?, ¬ heads c) :
    Rejects p text :=
  first.rejects fun ⟨c, head, known⟩ => outside c head known

theorem none {other : Parser β} (second : Heads heads' other)
    (apart : ∀ c, heads c → ¬ heads' c) {cursor after : Cursor} {value : β}
    (read : (other cursor).result = some (value, after)) : (p cursor).result = Option.none := by
  obtain ⟨c, head, known⟩ := second _ _ _ read
  refine first.outside (fun c' head' known' => ?_) cursor.position
  rw [Option.mem_unique head head'] at known
  exact apart c' known' known

end

end Begins

theorem heads_literal {text : String} {c : Char} (begins : text.toList.head? = some c) :
    Heads (· = c) (literal text) := by
  intro cursor value after read
  exact ⟨c, by rw [literal_rest read, List.head?_append, begins]; rfl, rfl⟩

theorem heads_oneOf {set : CharClass} : Heads (set.contains · = true) (oneOf set) := by
  intro cursor value after read
  exact ⟨value, by rw [oneOf_rest read]; rfl, oneOf_contains read⟩

theorem heads_oneText {choices : List (String × α)} {heads : Char → Prop}
    (each : ∀ choice ∈ choices, ∃ c ∈ choice.1.toList.head?, heads c) :
    Heads heads (oneText choices) := by
  intro cursor value after read
  obtain ⟨choice, member, -, written⟩ := oneText_rest read
  obtain ⟨c, head, known⟩ := each choice member
  exact ⟨c, by rw [written, List.head?_append, head]; rfl, known⟩

theorem takes_oneText {choices : List (String × α)} {position : Position} {value : α}
    (taken : Takes (oneText choices) position text value rest) :
    ∃ choice ∈ choices, text = choice.1.toList ∧ value = choice.2 := by
  obtain ⟨choice, member, same, written⟩ := oneText_rest taken
  exact ⟨choice, member, List.append_cancel_right written, same⟩

theorem sampled_oneText {first : String × α} {choices : List (String × α)}
    (leads : ∀ choice ∈ first :: choices, P.Leads choice.1.toList Q) (behind : Q.Behind)
    (apart : (first :: choices).Pairwise fun earlier later =>
      ∀ rest, Q.Allows rest → ¬ earlier.1.toList <+: later.1.toList ++ rest) :
    Sampled C P (first.1.toList ++ []) (oneText (first :: choices)) (oneText (first :: choices))
      (· = ·) Q := by
  have one (choice : String × α) (leads : P.Leads choice.1.toList Q) :
      Sampled C P (choice.1.toList ++ []) (do
        literal choice.1
        return choice.2) (do
        literal choice.1
        return choice.2) (· = ·) Q :=
    (sampled_literal leads behind).bind fun _ _ => .pure (fun _ => rfl) (.refl Q)
  have nonempty : Nonempty α := ⟨first.2⟩
  -- a text that is tried later does not begin with one that is tried earlier
  have excludes {choice : String × α} {others : List (String × α)}
      (apart : ∀ later ∈ others, ∀ rest, Q.Allows rest →
        ¬ choice.1.toList <+: later.1.toList ++ rest)
      {position : Position} {text rest : List Char} {value : α}
      (taken : Takes (oneText others) position text value rest) (allows : Q.Allows rest) :
      ((do
        literal choice.1
        return choice.2 : Parser α) ⟨text ++ rest, position⟩).result = none := by
    obtain ⟨later, member, rfl, -⟩ := takes_oneText taken
    rw [result_bind, literal_none (apart later member rest allows)]
  have all (choices : List (String × α)) (leads : ∀ choice ∈ choices, P.Leads choice.1.toList Q)
      (apart : choices.Pairwise fun earlier later =>
        ∀ rest, Q.Allows rest → ¬ earlier.1.toList <+: later.1.toList ++ rest) :
      Viable C P (oneText choices) (oneText choices) (· = ·) Q := by
    induction choices with
    | nil => exact .fail
    | cons choice others ih =>
      obtain ⟨here, leads⟩ := List.forall_mem_cons.mp leads
      obtain ⟨apart, others⟩ := List.pairwise_cons.mp apart
      exact (one choice here).toViable.or (ih leads others) fun _ => excludes apart
  obtain ⟨here, leads⟩ := List.forall_mem_cons.mp leads
  obtain ⟨apart, others⟩ := List.pairwise_cons.mp apart
  exact (one first here).or (all choices leads others) fun _ => excludes apart

abbrev Unlike (choices : List (String × α)) : Prop := choices.Pairwise fun earlier later =>
  ¬ earlier.1.toList <+: later.1.toList ∧ ¬ later.1.toList <+: earlier.1.toList

theorem Unlike.apart {choices : List (String × α)} (unlike : Unlike choices) :
    choices.Pairwise fun earlier later =>
      ∀ rest, Q.Allows rest → ¬ earlier.1.toList <+: later.1.toList ++ rest := by
  refine unlike.imp fun {earlier later} both rest _ begins => ?_
  rcases List.prefix_or_prefix_of_prefix begins (List.prefix_append _ rest) with shorter | longer
  · exact both.1 shorter
  · exact both.2 longer

abbrev AllVisible (choices : List (String × α)) : Prop :=
  ∀ choice ∈ choices, Place.Visible choice.1.toList

theorem leads_all {choices : List (String × α)} (visible : AllVisible choices) :
    ∀ choice ∈ choices, Place.token.Leads choice.1.toList Q :=
  fun choice member => Place.leads_solid (visible choice member) fun _ _ => trivial

theorem sampled_fixed {text : String} (visible : Place.Visible text.toList) (behind : Q.Behind) :
    Sampled C .token text.toList (literal text) (literal text) (· = ·) Q :=
  sampled_literal (Place.leads_solid visible fun _ _ => trivial) behind

theorem sampled_word {text : String} (visible : Place.Visible text.toList) :
    Sampled C .token text.toList (word text) (word text) (· = ·) (.loose good) :=
  ((sampled_fixed visible Place.behind_loose).bind fun _ _ =>
    sampled_wordEnd.imp (fun _ _ _ _ => rfl) (.refl _) (.refl _)).cast (List.append_nil _)

section
variable {first : String × α} {choices : List (String × α)}

theorem sampled_choice (leads : ∀ choice ∈ first :: choices, P.Leads choice.1.toList Q)
    (unlike : Unlike (first :: choices)) (behind : Q.Behind) :
    Sampled C P first.1.toList (oneText (first :: choices)) (oneText (first :: choices)) (· = ·) Q :=
  (sampled_oneText leads behind unlike.apart).cast (List.append_nil _)

theorem sampled_oneWord
    (leads : ∀ choice ∈ first :: choices, P.Leads choice.1.toList (.loose good))
    (unlike : Unlike (first :: choices)) : Sampled C P first.1.toList (oneWord (first :: choices))
      (oneWord (first :: choices)) (· = ·) (.loose good) := by
  have nonempty : Nonempty α := ⟨first.2⟩
  exact ((sampled_choice leads unlike Place.behind_loose).bind fun _ _ =>
    sampled_wordEnd.bind fun _ _ => .pure (fun _ same => same) (.refl (.loose good))).cast
      (List.append_nil _)

end

theorem takes_blanks {position : Position} (run : blankRun (text ++ rest) = text.length) :
    Takes blanks position text () rest := by
  simp [Takes, blanks, run, Cursor.skip]

theorem skipped_of_takes {position : Position} {value : Unit}
    (taken : Takes blanks position text value rest) :
    Skipped text rest ∧ blankRun (text ++ rest) = text.length := by
  obtain ⟨gap, behind, whole, run, skipped⟩ := exists_skipped (text ++ rest)
  have left : (text ++ rest).drop (blankRun (text ++ rest)) = rest :=
    congrArg (fun read => read.2.rest) (Option.some.inj taken)
  rw [run, whole, List.drop_left] at left
  subst left
  obtain rfl := List.append_cancel_right whole
  exact ⟨skipped, run⟩

theorem head?_append_congr (same : rest'.head? = rest.head?) :
    (text ++ rest').head? = (text ++ rest).head? := by
  rw [List.head?_append, List.head?_append, same]

theorem run_of_takes {position : Position} {value : Unit}
    (taken : Takes blanks position text value rest) (bare : blankRun rest' = 0)
    (same : rest'.head? = rest.head?) : blankRun (text ++ rest') = text.length := by
  obtain ⟨skipped, run⟩ := skipped_of_takes taken
  cases rest with
  | nil =>
    obtain rfl := List.head?_eq_none_iff.mp same
    exact run
  | cons c rest =>
    rw [(skipped.spacing (List.cons_ne_nil c rest)).blankRun_append, bare, Nat.add_zero]

theorem sampled_blanks :
    Sampled C (.loose good) ['\n'] blanks blanks (· = ·) (.solid good) := by
  have newline {gap rest : List Char} (spacing : Spacing (gap ++ ['\n'])) (bare : blankRun rest = 0) :
      blankRun (gap ++ ['\n'] ++ rest) = (gap ++ ['\n']).length := by
    rw [spacing.blankRun_append, bare, Nat.add_zero]
  have begins {gap rest : List Char} (run : blankRun (gap ++ rest) = gap.length) (known : good rest) :
      good ((gap ++ rest).drop (blankRun (gap ++ rest))) := by
    rwa [run, List.drop_left]
  have one {rest : List Char} (bare : blankRun rest = 0) : blankRun (['\n'] ++ rest) = 1 := by
    rw [spacing_newline.blankRun_append, bare]
    rfl
  refine ⟨⟨Advances.reaches _ _ _, fun cursor => honest_one _ _, ?_, ?_, ?_⟩, fun rest fresh =>
    ⟨⟨begins (one fresh.1) fresh.2, rfl⟩, fun position => ⟨(), takes_blanks (one fresh.1)⟩⟩⟩
  · intro position text value rest _ taken
    refine ⟨(skipped_of_takes taken).1.bare, fun _ => .inr ⟨nofun, ?_⟩⟩
    have after := congrArg (fun read => read.2.position) (Option.some.inj taken)
    exact Nat.le_of_eq (congrArg Position.offset after).symm
  · intro position text value rest position' _ taken _
    refine ⟨(), fun rest' related => ?_⟩
    obtain ⟨⟨bare, known⟩, same⟩ := related
    have run := run_of_takes taken bare same
    exact ⟨⟨begins run known, .inl (head?_append_congr same)⟩, takes_blanks run, rfl⟩
  · intro position text offset position' _ noted _
    obtain ⟨gap, unread, rfl, run, skipped⟩ := exists_skipped text
    refine .inr ⟨gap, unread, ['\n'], rfl, ?_, fun rest fresh => ?_⟩
    · rw [← noted.2]
      simp [blanks, Furthest.one, Cursor.skip, Position.after_offset, run]
    · have run := newline skipped.ended fresh.1
      refine ⟨⟨begins run fresh.2, ?_⟩, (), takes_blanks run⟩
      cases gap with
      | nil =>
        refine .inr ?_
        rintro c ⟨⟩
        rfl
      | cons c gap => exact .inl rfl

section
variable {α β : Type} [Nonempty α] {first first' : Parser α} {next next' : α → Parser β}
  {agree : α → α → Prop} {agree' : β → β → Prop} {P Q : Place} {sample sample' : List Char}

theorem Sampled.spaced (begins : Sampled C P sample first first' agree (.loose good))
    (onward : ∀ value value', Sampled C (.solid good) sample' (next value) (next' value') agree' Q) :
    Sampled C P (sample ++ ("\n".toList ++ sample')) (first >>= fun value => blanks >>= fun _ => next value)
      (first' >>= fun value => blanks >>= fun _ => next' value) agree' Q :=
  begins.skip fun value value' => sampled_blanks.skip fun _ _ => onward value value'

theorem Viable.spaced (begins : Viable C P first first' agree (.loose good))
    (onward : ∀ value value', Sampled C (.solid good) sample' (next value) (next' value') agree' Q) :
    Viable C P (first >>= fun value => blanks >>= fun _ => next value)
      (first' >>= fun value => blanks >>= fun _ => next' value) agree' Q :=
  begins.skip fun value value' => sampled_blanks.skip fun _ _ => onward value value'

end

theorem sampled_no_blanks : Sampled C (.solid good) [] blanks blanks (· = ·) (.solid good) := by
  have nothing {position : Position} {rest : List Char} (bare : blankRun rest = 0) :
      Takes blanks position [] () rest := takes_blanks bare
  refine ⟨⟨Advances.reaches _ _ _, fun cursor => honest_one _ _, ?_, ?_, ?_⟩, fun rest fresh =>
    ⟨fresh, fun position => ⟨(), nothing fresh.1⟩⟩⟩
  · intro position text value rest stands taken
    have run := (skipped_of_takes taken).2
    obtain rfl := List.length_eq_zero_iff.mp (run.symm.trans stands)
    exact ⟨stands, fun _ => .inl ⟨rfl, rfl⟩⟩
  · intro position text value rest position' stands taken _
    have run := (skipped_of_takes taken).2
    obtain rfl := List.length_eq_zero_iff.mp (run.symm.trans stands)
    exact ⟨(), fun rest' related => ⟨related, nothing related.1.1, rfl⟩⟩
  · intro position text offset position' stands noted _
    have bare : blankRun text = 0 := stands
    refine .inl ⟨rfl, ?_⟩
    rw [← noted.2]
    simp [blanks, Furthest.one, Cursor.skip, bare]

end LeoFront.Grammar

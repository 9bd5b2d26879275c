import LeoFront.Proofs.Spacing.Lockstep

/-!
# Texts that can be gone on with

What a parser does with the beginning of a text is compared with what it does with another text that
begins in the same way. Where it has read something, it reads that again if the other text goes on
well; where it failed, there is a text that goes on so that it does not fail.

* A `Place` is where a parser stands: before a token (`Place.solid`), behind one (`Place.loose`) or
  inside (`Place.inside`), with a condition on what may come there.
* `Viable` says both of a parser from one place to another, `Sampled` also that the parser reads a
  certain text.
* `Viable.commit` follows a parser and what comes behind it where it succeeds and where it fails;
  sequence, choice and repetition are cases of it.
-/

namespace LeoFront.Grammar
open LeoFront.Parser
open Text (units16)
variable {α β : Type}

def Takes (p : Parser α) (position : Position) (text : List Char) (value : α) (rest : List Char) :
    Prop :=
  (p ⟨text ++ rest, position⟩).result = some (value, ⟨rest, position.after text⟩)

def Noted (furthest : Furthest) (offset : Nat) : Prop :=
  furthest.expected ≠ [] ∧ furthest.offset = offset

def NotedFrom (furthest : Furthest) (offset : Nat) : Prop :=
  furthest.expected ≠ [] ∧ offset ≤ furthest.offset

def Honest (furthest : Furthest) : Prop := furthest.expected = [] → furthest.offset = 0

theorem honest_none : Honest .none := fun _ => rfl

theorem honest_one (offset : Nat) (expectation : Expectation) : Honest (.one offset expectation) :=
  nofun

section
variable {f g : Furthest} {offset : Nat}

theorem Honest.merge (honest : Honest f) (honest' : Honest g) : Honest (f.merge g) := by
  unfold Furthest.merge
  split
  · exact honest'
  split
  · exact honest
  · exact fun nothing => honest (List.append_eq_nil_iff.mp nothing).1

theorem Honest.noted (honest : Honest f) : f.offset = 0 ∨ Noted f f.offset :=
  (Classical.em (f.expected = [])).imp honest fun something => ⟨something, rfl⟩

theorem Noted.of_merge (noted : Noted (f.merge g) offset) :
    Noted f offset ∨ Noted g offset ∧ f.offset ≤ offset := by
  obtain ⟨something, same⟩ := noted
  unfold Furthest.merge at something same
  split at something
  · rename_i less
    rw [if_pos less] at same
    exact .inr ⟨⟨something, same⟩, by omega⟩
  rename_i notLess
  rw [if_neg notLess] at same
  split at something
  · rename_i less
    rw [if_pos less] at same
    exact .inl ⟨something, same⟩
  · rename_i notLess'
    rw [if_neg notLess'] at same
    dsimp only at something same
    by_cases first : f.expected = []
    · rw [first, List.nil_append] at something
      exact .inr ⟨⟨something, by omega⟩, by omega⟩
    · exact .inl ⟨first, same⟩

theorem NotedFrom.merge_left (noted : NotedFrom f offset) (honest : Honest g) :
    NotedFrom (f.merge g) offset := by
  obtain ⟨something, le⟩ := noted
  unfold Furthest.merge
  split
  · rename_i less
    refine ⟨fun nothing => ?_, by omega⟩
    rw [honest nothing] at less
    omega
  split
  · exact ⟨something, le⟩
  · exact ⟨fun nothing => something (List.append_eq_nil_iff.mp nothing).1, le⟩

theorem NotedFrom.merge_right (noted : NotedFrom g offset) (honest : Honest f) :
    NotedFrom (f.merge g) offset := by
  obtain ⟨something, le⟩ := noted
  unfold Furthest.merge
  split
  · exact ⟨something, le⟩
  split
  · rename_i less
    refine ⟨fun nothing => ?_, by omega⟩
    rw [honest nothing] at less
    omega
  · exact ⟨fun nothing => something (List.append_eq_nil_iff.mp nothing).2, by dsimp only; omega⟩

end

def BeginsLike (text other : List Char) : Prop :=
  other.head? = text.head? ∨ ∀ c ∈ other.head?, isBlank c = true

/-- Where a parser stands, and which texts may come there. -/
structure Place where
  /-- Whether a failure at the place is left to what was read before it. -/
  bare : Bool
  Stands : List Char → Prop
  Allows : List Char → Prop
  /-- A text may take the place of another, so that what reads up to the place does not change. -/
  Relates : List Char → List Char → Prop
  /-- A text may be put there, whatever has been read. -/
  Fresh : List Char → Prop
  allows_of_relates : ∀ {text other}, Relates text other → Allows other
  allows_of_fresh : ∀ {text}, Fresh text → Allows text

namespace Place

def solid (good : List Char → Prop) : Place where
  bare := true
  Stands text := blankRun text = 0
  Allows text := blankRun text = 0 ∧ good text
  Relates text other := (blankRun other = 0 ∧ good other) ∧ other.head? = text.head?
  Fresh text := blankRun text = 0 ∧ good text
  allows_of_relates := And.left
  allows_of_fresh := id

abbrev token : Place := solid fun _ => True

def loose (good : List Char → Prop) : Place where
  bare := false
  Stands _ := True
  Allows text := good (text.drop (blankRun text))
  Relates text other := good (other.drop (blankRun other)) ∧ BeginsLike text other
  Fresh text := good (text.drop (blankRun text)) ∧ text.head? = some '\n'
  allows_of_relates := And.left
  allows_of_fresh := And.left

def inside (bare : Bool) (good : List Char → Prop) : Place where
  bare := bare
  Stands _ := True
  Allows := good
  Relates _ := good
  Fresh := good
  allows_of_relates := id
  allows_of_fresh := id

structure Within (Q P : Place) : Prop where
  bare : Q.bare = P.bare
  stands : ∀ {text}, Q.Stands text ↔ P.Stands text
  allows : ∀ {text}, Q.Allows text → P.Allows text
  relates : ∀ {text other}, Q.Relates text other → P.Relates text other
  fresh : ∀ {text}, Q.Fresh text → P.Fresh text

theorem Within.refl (P : Place) : P.Within P := ⟨rfl, .rfl, id, id, id⟩

theorem within_solid {good better : List Char → Prop} (implied : ∀ text, better text → good text) :
    (solid better).Within (solid good) :=
  ⟨rfl, .rfl, fun both => ⟨both.1, implied _ both.2⟩,
    fun both => ⟨⟨both.1.1, implied _ both.1.2⟩, both.2⟩, fun both => ⟨both.1, implied _ both.2⟩⟩

theorem within_loose {good better : List Char → Prop} (implied : ∀ text, better text → good text) :
    (loose better).Within (loose good) :=
  ⟨rfl, .rfl, implied _, fun both => ⟨implied _ both.1, both.2⟩,
    fun both => ⟨implied _ both.1, both.2⟩⟩

end Place

variable {C : Comparison} {P P' M Q Q' : Place} {p q r r' : Parser α} {agree weaker : α → α → Prop}
  {sample sample' : List Char}

/-- A parser `p` on a text and the same parser `q`, perhaps with another bound, on a text that begins in
the same way, from a place `P` to a place `Q`. -/
structure Viable (C : Comparison) (P : Place) (p q : Parser α) (agree : α → α → Prop) (Q : Place) :
    Prop where
  advances : ∀ {cursor value after}, (p cursor).result = some (value, after) → cursor.Reaches after
  honest : ∀ cursor, Honest (p cursor).furthest
  /-- Before a token, the parser has failed to go on with what is skipped or stands at its end. -/
  ends : ∀ {position text value rest}, P.Stands (text ++ rest) → Takes p position text value rest →
    Q.Stands rest ∧ (Q.bare = true → text = [] ∧ P.bare = true ∨
      NotedFrom (p ⟨text ++ rest, position⟩).furthest (position.after text).offset)
  /-- What was read is read again before another text that may come there. -/
  keeps : ∀ {position text value rest} (position' : Position), P.Stands (text ++ rest) →
    Takes p position text value rest → C.left position = C.right position' →
    ∃ value', ∀ rest', Q.Relates rest rest' → P.Relates (text ++ rest) (text ++ rest') ∧
      Takes q position' text value' rest' ∧ agree value value'
  /-- What stands before the furthest failure can be completed, unless the failure is at the
  beginning. -/
  completes : ∀ {position text offset} (position' : Position), P.Stands text →
    Noted (p ⟨text, position⟩).furthest offset → C.left position = C.right position' →
    P.bare = true ∧ offset = position.offset ∨
    ∃ read unread more, text = read ++ unread ∧ offset = position.offset + units16 read ∧
      ∀ rest, Q.Fresh rest → P.Relates text (read ++ more ++ rest) ∧
        ∃ value, Takes q position' (read ++ more) value rest

def Samples (P : Place) (sample : List Char) (q : Parser α) (Q : Place) : Prop :=
  ∀ rest, Q.Fresh rest → P.Fresh (sample ++ rest) ∧
    ∀ position, ∃ value, Takes q position sample value rest

structure Sampled (C : Comparison) (P : Place) (sample : List Char) (p q : Parser α)
    (agree : α → α → Prop) (Q : Place) : Prop extends Viable C P p q agree Q where
  samples : Samples P sample q Q

/-- A parser, then one where it succeeds and another one where it fails. -/
def commit (p : Parser α) (next : α → Parser β) (other : Parser β) : Parser β := fun cursor =>
  match p cursor with
  | ⟨some (value, after), furthest⟩ =>
    let reply := next value after
    ⟨reply.result, furthest.merge reply.furthest⟩
  | ⟨none, furthest⟩ =>
    let reply := other cursor
    ⟨reply.result, furthest.merge reply.furthest⟩

theorem bind_eq_commit (p : Parser α) (next : α → Parser β) :
    p >>= next = commit p next fail := by
  funext cursor
  change Parser.bind p next cursor = _
  unfold Parser.bind commit
  rcases p cursor with ⟨_ | ⟨value, after⟩, furthest⟩
  · simp [fail]
  · rfl

theorem or_eq_commit (p q : Parser α) : p.or q = commit p Pure.pure q := by
  funext cursor
  unfold Parser.or commit
  rcases p cursor with ⟨_ | ⟨value, after⟩, furthest⟩
  · rfl
  · change _ = Reply.mk _ (Furthest.merge furthest .none)
    rw [Furthest.merge_none]
    rfl

theorem optional_bind (p : Parser α) (next : Option α → Parser β) :
    optional p >>= next = commit p (fun value => next (some value)) (next none) := by
  funext cursor
  change Parser.bind (Parser.or (Parser.bind p fun value => Parser.pure (some value))
    (Parser.pure none)) next cursor = _
  unfold Parser.bind Parser.or commit Parser.pure
  dsimp only
  rcases p cursor with ⟨_ | ⟨value, after⟩, furthest⟩
  · simp
  · simp

section
variable {next : α → Parser β} {other : Parser β} {position : Position} {text rest : List Char}
  {value : β}

theorem commit_some {cursor after : Cursor} {first : α}
    (read : (p cursor).result = some (first, after)) : commit p next other cursor =
      ⟨(next first after).result, (p cursor).furthest.merge (next first after).furthest⟩ := by
  unfold commit
  revert read
  rcases p cursor with ⟨_ | ⟨first, after⟩, furthest⟩
  · exact nofun
  · intro read
    cases read
    rfl

theorem commit_none {cursor : Cursor} (fails : (p cursor).result = none) :
    commit p next other cursor =
      ⟨(other cursor).result, (p cursor).furthest.merge (other cursor).furthest⟩ := by
  unfold commit
  revert fails
  rcases p cursor with ⟨_ | ⟨first, after⟩, furthest⟩
  · exact fun _ => rfl
  · exact nofun

theorem bind_of_some {cursor after : Cursor} {first : α}
    (read : (p cursor).result = some (first, after)) : (p >>= next) cursor =
      ⟨(next first after).result, (p cursor).furthest.merge (next first after).furthest⟩ := by
  rw [bind_eq_commit, commit_some read]

theorem bind_of_none {cursor : Cursor} (fails : (p cursor).result = none) :
    (p >>= next) cursor = ⟨none, (p cursor).furthest⟩ := by
  rw [bind_eq_commit, commit_none fails]
  exact congrArg (Reply.mk none) (Furthest.merge_none _)

theorem honest_bind (honest : ∀ cursor, Honest (p cursor).furthest)
    (honest' : ∀ first cursor, Honest (next first cursor).furthest) (cursor : Cursor) :
    Honest ((p >>= next) cursor).furthest := by
  rcases here : (p cursor).result with _ | ⟨first, after⟩
  · rw [bind_of_none here]
    exact honest cursor
  · rw [bind_of_some here]
    exact (honest cursor).merge (honest' first after)

theorem takes_next {first : α} {read : List Char}
    (here : Takes p position read first (text ++ rest))
    (onward : Takes (next first) (position.after read) text value rest) :
    Takes (commit p next other) position (read ++ text) value rest := by
  rw [Takes, List.append_assoc, commit_some here, Position.after_append]
  exact onward

theorem Takes.bind {first : α} {read : List Char}
    (here : Takes p position read first (text ++ rest))
    (onward : Takes (next first) (position.after read) text value rest) :
    Takes (p >>= next) position (read ++ text) value rest := by
  rw [bind_eq_commit]
  exact takes_next here onward

theorem Takes.map {make : α → β} {first : α} (here : Takes p position text first rest) :
    Takes (do return make (← p)) position text (make first) rest := by
  unfold Takes at here ⊢
  rw [result_bind, here]
  rfl

theorem takes_map {make : α → β} (taken : Takes (do return make (← p)) position text value rest) :
    ∃ first, Takes p position text first rest ∧ value = make first := by
  obtain ⟨first, after, here, done⟩ := bind_some.mp taken
  cases done
  exact ⟨first, here, rfl⟩

theorem bind_fails {cursor : Cursor} (fails : (p cursor).result = none) :
    ((p >>= next) cursor).result = none := by
  rw [result_bind, fails]

theorem Takes.ended {first : α} (here : Takes p position text first rest)
    (onward : Takes (next first) (position.after text) [] value rest) :
    Takes (p >>= next) position text value rest := by
  rw [← List.append_nil text]
  exact here.bind onward

theorem takes_pure : Takes (Pure.pure value) position [] value rest := rfl

theorem Takes.or_left {q : Parser α} {first : α} (here : Takes p position text first rest) :
    Takes (p.or q) position text first rest := by
  unfold Takes at here ⊢
  rw [result_or, here, Option.some_or]

theorem Takes.or_right {q : Parser α} {second : α} (fails : (p ⟨text ++ rest, position⟩).result = none)
    (here : Takes q position text second rest) : Takes (p.or q) position text second rest := by
  unfold Takes at here ⊢
  rw [result_or, fails, Option.none_or, here]

theorem takes_other (fails : (p ⟨text ++ rest, position⟩).result = none)
    (read : Takes other position text value rest) :
    Takes (commit p next other) position text value rest := by
  rw [Takes, commit_none fails]
  exact read

end

namespace Viable

variable {next next' : α → Parser β} {other other' : Parser β} {agree' : β → β → Prop}
  (first : Viable C P p q agree M)
  (onward : ∀ value value', Sampled C M sample (next value) (next' value')
    (fun made made' => agree value value' → agree' made made') Q)
include first onward

theorem takes_commit {position : Position} {text rest : List Char} {value : β}
    (read : Takes (commit p next other) position text value rest) :
    (∃ before behind head, text = before ++ behind ∧
      Takes p position before head (behind ++ rest) ∧
      Takes (next head) (position.after before) behind value rest) ∨
    (p ⟨text ++ rest, position⟩).result = none ∧ Takes other position text value rest := by
  unfold Takes at read
  rcases here : (p ⟨text ++ rest, position⟩).result with _ | ⟨head, middle⟩
  · rw [commit_none here] at read
    exact .inr ⟨rfl, read⟩
  · rw [commit_some here] at read
    obtain ⟨before, whole, moved⟩ := first.advances here
    obtain ⟨behind, left, moved'⟩ := (onward head head).advances read
    dsimp only at whole left
    rw [left, ← List.append_assoc] at whole
    obtain rfl := List.append_cancel_right whole
    have same : middle = ⟨behind ++ rest, position.after before⟩ := by
      rw [← left, ← moved]
    subst same
    refine .inl ⟨before, behind, head, rfl, ?_, ?_⟩
    · rw [Takes, ← List.append_assoc]
      exact here
    · rw [Takes, ← Position.after_append]
      exact read

theorem completed_first [Nonempty α] {position : Position} {text : List Char} {offset : Nat}
    (position' : Position) (stands : P.Stands text)
    (noted : Noted (p ⟨text, position⟩).furthest offset)
    (same : C.left position = C.right position') : P.bare = true ∧ offset = position.offset ∨
    ∃ read unread more, text = read ++ unread ∧ offset = position.offset + units16 read ∧
      ∀ rest, Q.Fresh rest → P.Relates text (read ++ more ++ rest) ∧
        ∃ value, Takes (commit q next' other') position' (read ++ more) value rest := by
  obtain ⟨some⟩ : Nonempty α := inferInstance
  refine (first.completes position' stands noted same).imp id ?_
  rintro ⟨read, unread, more, rfl, units, goesOn⟩
  refine ⟨read, unread, more ++ sample, rfl, units, fun rest fresh => ?_⟩
  obtain ⟨related, value, here⟩ := goesOn _ ((onward some some).samples rest fresh).1
  obtain ⟨made, later⟩ := ((onward some value).samples rest fresh).2 (position'.after (read ++ more))
  rw [← List.append_assoc, List.append_assoc (read ++ more)]
  exact ⟨related, made, takes_next here later⟩

variable (others : Viable C P other other' agree' Q)
include others

theorem commit_advances {cursor after : Cursor} {value : β}
    (read : (commit p next other cursor).result = some (value, after)) : cursor.Reaches after := by
  rcases here : (p cursor).result with _ | ⟨head, middle⟩
  · rw [commit_none here] at read
    exact others.advances read
  · rw [commit_some here] at read
    exact (first.advances here).trans ((onward head head).advances read)

theorem commit_honest (cursor : Cursor) : Honest (commit p next other cursor).furthest := by
  rcases here : (p cursor).result with _ | ⟨head, middle⟩
  · rw [commit_none here]
    exact (first.honest cursor).merge (others.honest cursor)
  · rw [commit_some here]
    exact (first.honest cursor).merge ((onward head head).honest middle)

theorem commit_ends {position : Position} {text rest : List Char} {value : β}
    (stands : P.Stands (text ++ rest)) (read : Takes (commit p next other) position text value rest) :
    Q.Stands rest ∧ (Q.bare = true → text = [] ∧ P.bare = true ∨
      NotedFrom (commit p next other ⟨text ++ rest, position⟩).furthest
        (position.after text).offset) := by
  rcases takes_commit first onward read with
    ⟨before, behind, head, rfl, here, later⟩ | ⟨fails, here⟩
  · rw [List.append_assoc] at stands ⊢
    obtain ⟨stands', begins⟩ := first.ends stands here
    obtain ⟨ends, reaches⟩ := (onward head head).ends stands' later
    refine ⟨ends, fun bare => ?_⟩
    rw [commit_some here, Position.after_append]
    have honest := first.honest ⟨before ++ (behind ++ rest), position⟩
    have honest' := (onward head head).honest ⟨behind ++ rest, position.after before⟩
    rcases reaches bare with ⟨rfl, bare'⟩ | noted
    · rcases begins bare' with ⟨rfl, bare'⟩ | noted
      · exact .inl ⟨rfl, bare'⟩
      · exact .inr (noted.merge_left honest')
    · exact .inr (noted.merge_right honest)
  · obtain ⟨ends, reaches⟩ := others.ends stands here
    refine ⟨ends, fun bare => ?_⟩
    rw [commit_none fails]
    exact (reaches bare).imp id fun noted => noted.merge_right (first.honest _)

variable (excludes : ∀ {position text value rest}, P.Allows (text ++ rest) →
    Takes other' position text value rest → Q.Allows rest → (q ⟨text ++ rest, position⟩).result = none)
include excludes

theorem commit_keeps {position : Position} {text rest : List Char} {value : β}
    (position' : Position) (stands : P.Stands (text ++ rest))
    (read : Takes (commit p next other) position text value rest)
    (same : C.left position = C.right position') :
    ∃ value', ∀ rest', Q.Relates rest rest' → P.Relates (text ++ rest) (text ++ rest') ∧
      Takes (commit q next' other') position' text value' rest' ∧ agree' value value' := by
  rcases takes_commit first onward read with
    ⟨before, behind, head, rfl, here, later⟩ | ⟨fails, here⟩
  · simp only [List.append_assoc] at stands ⊢
    obtain ⟨head', again⟩ := first.keeps position' stands here same
    obtain ⟨value', again'⟩ := (onward head head').keeps (position'.after before)
      (first.ends stands here).1 later (Comparison.after_eq same before)
    refine ⟨value', fun rest' related => ?_⟩
    obtain ⟨related, later, known'⟩ := again' rest' related
    obtain ⟨related, here, known⟩ := again _ related
    exact ⟨related, takes_next here later, known' known⟩
  · obtain ⟨value', again⟩ := others.keeps position' stands here same
    refine ⟨value', fun rest' related => ?_⟩
    obtain ⟨related', here, known⟩ := again rest' related
    exact ⟨related', takes_other
      (excludes (P.allows_of_relates related') here (Q.allows_of_relates related)) here, known⟩

theorem commit_completes [Nonempty α] {position : Position} {text : List Char} {offset : Nat}
    (position' : Position) (stands : P.Stands text)
    (noted : Noted (commit p next other ⟨text, position⟩).furthest offset)
    (same : C.left position = C.right position') : P.bare = true ∧ offset = position.offset ∨
    ∃ read unread more, text = read ++ unread ∧ offset = position.offset + units16 read ∧
      ∀ rest, Q.Fresh rest → P.Relates text (read ++ more ++ rest) ∧
        ∃ value, Takes (commit q next' other') position' (read ++ more) value rest := by
  rcases here : (p ⟨text, position⟩).result with _ | ⟨head, middle⟩
  · rw [commit_none here] at noted
    rcases noted.of_merge with noted | ⟨noted, -⟩
    · exact first.completed_first onward position' stands noted same
    · refine (others.completes position' stands noted same).imp id ?_
      rintro ⟨read, unread, more, rfl, units, onwards⟩
      refine ⟨read, unread, more, rfl, units, fun rest fresh => ?_⟩
      obtain ⟨related, value, taken⟩ := onwards rest fresh
      exact ⟨related, value, takes_other
        (excludes (P.allows_of_relates related) taken (Q.allows_of_fresh fresh)) taken⟩
  · obtain ⟨behind, place⟩ := middle
    obtain ⟨before, whole, moved⟩ := first.advances here
    dsimp only at whole moved
    subst whole moved
    have taken : Takes p position before head behind := here
    rw [commit_some here] at noted
    rcases noted.of_merge with noted | ⟨noted, le⟩
    · exact first.completed_first onward position' stands noted same
    obtain ⟨stands', begins⟩ := first.ends stands taken
    obtain ⟨head', again⟩ := first.keeps position' stands taken same
    rcases (onward head head').completes (position'.after before) stands' noted
      (Comparison.after_eq same before) with ⟨bare, rfl⟩ | ⟨read, unread, more, rfl, units, goesOn⟩
    -- The second parser failed where it began: there the first one ended, or had failed to go on.
    · rcases begins bare with ⟨rfl, bare'⟩ | ⟨something, ge⟩
      · exact .inl ⟨bare', rfl⟩
      · exact first.completed_first onward position' stands ⟨something, Nat.le_antisymm le ge⟩ same
    · refine .inr ⟨before ++ read, unread, more, by rw [List.append_assoc], ?_, fun rest fresh => ?_⟩
      · rw [units, Position.after_offset, Text.units16_append, Nat.add_assoc]
      · obtain ⟨related, made, later⟩ := goesOn rest fresh
        obtain ⟨related', here, -⟩ := again _ related
        rw [List.append_assoc before, List.append_assoc before]
        exact ⟨related', made, takes_next here later⟩

/-- A viable parser, and what comes behind it where it succeeds and where it fails. Of a text that the
other one reads the first one must not read anything. -/
theorem commit [Nonempty α] : Viable C P (Grammar.commit p next other) (Grammar.commit q next' other')
    agree' Q where
  advances := first.commit_advances onward others
  honest := first.commit_honest onward others
  ends := first.commit_ends onward others
  keeps := first.commit_keeps onward others excludes
  completes := first.commit_completes onward others excludes

end Viable

end LeoFront.Grammar

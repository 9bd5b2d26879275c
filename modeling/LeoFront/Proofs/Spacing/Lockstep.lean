import LeoFront.Proofs.Grammar.Consumption
import LeoFront.Proofs.Spacing.Comparison
import LeoFront.Proofs.Spacing.Moving
import Mathlib.Data.Option.Basic

/-!
# Parsers in lockstep

Two parsers are in lockstep if on texts with the same tokens both fail, or both succeed with values
that agree and go on at texts with the same tokens.

* `Lockstep.bind`, `Lockstep.or`, `Lockstep.many` and the like follow the combinators.
* `lockstep_literal`, `lockstep_manyOf`, `lockstep_blanks` are about the terminals.
* The bounds of nested rules differ in the two texts. So the texts have limits that both parsers may
  rely on, and behind a token the limits are smaller (`Lockstep.deeper`).
-/

namespace LeoFront.Grammar
open LeoFront.Parser

namespace Comparison
variable (C : Comparison)

def On (related : List Char → List Char → Prop) (here there : Cursor) : Prop :=
  related here.rest there.rest ∧ C.left here.position = C.right there.position

def Past (depth : Nat) (condition : Char → Prop) (s t : List Char) : Prop :=
  ∃ x, condition x ∧ C.Near depth x s t

abbrev Loose (depth : Nat) : List Char → List Char → Prop := C.Past depth fun _ => True

variable {C} {depth : Nat} {condition weaker : Char → Prop} {s t : List Char}

theorem after_eq {p q : Position} (same : C.left p = C.right q) (text : List Char) :
    C.left (p.after text) = C.right (q.after text) := by
  induction text generalizing p q with
  | nil => exact same
  | cons c text ih => exact ih (C.next p q c same)

theorem Solid.loose (solid : C.Solid depth s t) : C.Loose depth s t :=
  ⟨' ', trivial, .close solid⟩

theorem Past.mono (past : C.Past depth condition s t) (weakens : ∀ x, condition x → weaker x) :
    C.Past depth weaker s t := by
  obtain ⟨x, known, near⟩ := past
  exact ⟨x, weakens x known, near⟩

end Comparison

theorem result_spanned {α : Type} (p : Parser (Span → α)) (cursor : Cursor) :
    (spanned p cursor).result = (p cursor).result.map fun read =>
      (read.1 ⟨cursor.position, read.2.position⟩, read.2) := by
  unfold spanned
  rcases p cursor with ⟨_ | ⟨make, after⟩, furthest⟩ <;> rfl

section
variable {α β : Type} {C : Comparison} {m n : Nat} {before middle behind : List Char → List Char → Prop}
  {agree : α → α → Prop} {p q p' q' : Parser α}

/-- Two parsers go through two texts below two limits in the same way. -/
def Lockstep (C : Comparison) (m n : Nat) (before : List Char → List Char → Prop)
    (p q : Parser α) (agree : α → α → Prop) (behind : List Char → List Char → Prop) : Prop :=
  ∀ here there, here.rest.length < m → there.rest.length < n → C.On before here there →
    Option.Rel (fun read read' => agree read.1 read'.1 ∧ C.On behind read.2 read'.2)
      (p here).result (q there).result

namespace Lockstep

theorem of_below {m' n' : Nat} (lockstep : Lockstep C m n before p q agree behind) (le : m' ≤ m)
    (le' : n' ≤ n) : Lockstep C m' n' before p q agree behind :=
  fun here there below below' on =>
    lockstep here there (Nat.lt_of_lt_of_le below le) (Nat.lt_of_lt_of_le below' le') on

theorem imp {agree' : α → α → Prop} {behind' : List Char → List Char → Prop}
    (lockstep : Lockstep C m n before p q agree behind)
    (weakens : ∀ value value', agree value value' → agree' value value')
    (loosens : ∀ s t, behind s t → behind' s t) : Lockstep C m n before p q agree' behind' := by
  intro here there below below' on
  have both := lockstep here there below below' on
  generalize (p here).result = read at both ⊢
  generalize (q there).result = read' at both ⊢
  cases both with
  | some known => exact .some ⟨weakens _ _ known.1, loosens _ _ known.2.1, known.2.2⟩
  | none => exact .none

theorem of_before {before' : List Char → List Char → Prop}
    (lockstep : Lockstep C m n before p q agree behind) (implied : ∀ s t, before' s t → before s t) :
    Lockstep C m n before' p q agree behind :=
  fun here there below below' on => lockstep here there below below' ⟨implied _ _ on.1, on.2⟩

theorem pure {value value' : α} (known : agree value value')
    (implied : ∀ s t, before s t → behind s t) :
    Lockstep C m n before (Pure.pure value) (Pure.pure value') agree behind :=
  fun _ _ _ _ on => .some ⟨known, implied _ _ on.1, on.2⟩

theorem fail : Lockstep C m n before (fail : Parser α) Parser.fail agree behind :=
  fun _ _ _ _ _ => .none

theorem bind_of {next next' : α → Parser β} {agree' : β → β → Prop} {m' n' : Nat}
    (first : Lockstep C m n before p q agree middle)
    (less : ∀ cursor value after, (p cursor).result = some (value, after) →
      cursor.rest.length < m → after.rest.length < m')
    (less' : ∀ cursor value after, (q cursor).result = some (value, after) →
      cursor.rest.length < n → after.rest.length < n')
    (onward : ∀ value value', agree value value' →
      Lockstep C m' n' middle (next value) (next' value') agree' behind) :
    Lockstep C m n before (p >>= next) (q >>= next') agree' behind := by
  intro here there below below' on
  have both := first here there below below' on
  rw [result_bind, result_bind]
  rcases read : (p here).result with _ | ⟨value, after⟩ <;>
    rcases read' : (q there).result with _ | ⟨value', after'⟩ <;>
    rw [read, read'] at both
  · exact .none
  · cases both
  · cases both
  · obtain ⟨known, on⟩ := Option.rel_some_some.mp both
    exact onward value value' known after after' (less _ _ _ read below) (less' _ _ _ read' below') on

theorem bind {next next' : α → Parser β} {agree' : β → β → Prop} [Advances p] [Advances q]
    (first : Lockstep C m n before p q agree middle)
    (onward : ∀ value value', agree value value' →
      Lockstep C m n middle (next value) (next' value') agree' behind) :
    Lockstep C m n before (p >>= next) (q >>= next') agree' behind := by
  refine first.bind_of ?_ ?_ onward
  · exact fun _ _ _ read below =>
      Nat.lt_of_le_of_lt (Advances.reaches _ _ _ read).length_le below
  · exact fun _ _ _ read below =>
      Nat.lt_of_le_of_lt (Advances.reaches _ _ _ read).length_le below

theorem deeper {next next' : α → Parser β} {agree' : β → β → Prop} (consumes : Consumes p)
    (consumes' : Consumes q) (first : Lockstep C (m + 1) (n + 1) before p q agree middle)
    (onward : ∀ value value', agree value value' →
      Lockstep C m n middle (next value) (next' value') agree' behind) :
    Lockstep C (m + 1) (n + 1) before (p >>= next) (q >>= next') agree' behind := by
  refine first.bind_of ?_ ?_ onward
  · exact fun _ _ _ read below =>
      Nat.lt_of_lt_of_le (consumes _ _ _ read) (Nat.le_of_lt_succ below)
  · exact fun _ _ _ read below =>
      Nat.lt_of_lt_of_le (consumes' _ _ _ read) (Nat.le_of_lt_succ below)

theorem or (first : Lockstep C m n before p q agree behind)
    (second : Lockstep C m n before p' q' agree behind) :
    Lockstep C m n before (p.or p') (q.or q') agree behind := by
  intro here there below below' on
  have both := first here there below below' on
  rw [result_or, result_or]
  generalize (p here).result = read at both ⊢
  generalize (q there).result = read' at both ⊢
  cases both with
  | some known => exact .some known
  | none => exact second here there below below' on

theorem optional {f g : α → β} [Advances p] [Advances q]
    (lockstep : Lockstep C m n before p q (fun value value' => f value = g value') behind)
    (skips : ∀ s t, before s t → behind s t) :
    Lockstep C m n before (optional p) (Parser.optional q)
      (fun value value' => value.map f = value'.map g) behind := by
  refine or (bind lockstep fun value value' same => pure ?_ fun _ _ => id) (pure rfl skips)
  rw [Option.map_some, Option.map_some, same]

theorem repeats {f g : α → β} [Advances p] [Advances q]
    (lockstep : Lockstep C m n before p q (fun value value' => f value = g value') before)
    {here there after : Cursor} {values : List α} (repeats : Repeats p here values after)
    (stops : (p after).result = none) (below : here.rest.length < m) (below' : there.rest.length < n)
    (on : C.On before here there) : ∃ values' after', Repeats q there values' after' ∧
      (q after').result = none ∧ values.map f = values'.map g ∧ C.On before after after' := by
  -- On the repetition in the first text. What relates the texts before one round relates them after.
  induction repeats generalizing there with
  | done cursor =>
    have both := lockstep cursor there below below' on
    rw [stops] at both
    rcases other : (q there).result with _ | read
    · exact ⟨[], there, .done there, other, rfl, on⟩
    · rw [other] at both
      cases both
  | @more cursor middle after value values read _ ih =>
    have both := lockstep cursor there below below' on
    rw [read] at both
    rcases read' : (q there).result with _ | ⟨value', middle'⟩
    · rw [read'] at both
      cases both
    · rw [read'] at both
      obtain ⟨same, on⟩ := Option.rel_some_some.mp both
      have shorter := (Advances.reaches _ _ _ read).length_le
      have shorter' := (Advances.reaches _ _ _ read').length_le
      obtain ⟨values', after', repeats, stops, same', on⟩ :=
        ih stops (Nat.lt_of_le_of_lt shorter below) (Nat.lt_of_le_of_lt shorter' below') on
      refine ⟨value' :: values', after', .more read' repeats, stops, ?_, on⟩
      rw [List.map_cons, List.map_cons, same, same']

theorem many {f g : α → β} [Advances p] [Advances q] (consumes : Consumes p)
    (consumes' : Consumes q)
    (lockstep : Lockstep C m n before p q (fun value value' => f value = g value') before) :
    Lockstep C m n before (many p) (Parser.many q)
      (fun values values' => values.map f = values'.map g) before := by
  intro here there below below' on
  obtain ⟨values, after, read, repeats, stops⟩ := many_result consumes here
  obtain ⟨values', after', repeats', stops', same, on⟩ :=
    lockstep.repeats repeats stops below below' on
  rw [read, many_eq consumes' repeats' stops']
  exact .some ⟨same, on⟩

theorem spanned {f g : α → β} {p q : Parser (Span → α)}
    (lockstep : Lockstep C m n before p q (fun make make' => ∀ span span' : Span,
      span.move C.left = span'.move C.right → f (make span) = g (make' span')) behind) :
    Lockstep C m n before (spanned p) (Parser.spanned q)
      (fun value value' => f value = g value') behind := by
  intro here there below below' on
  have both := lockstep here there below below' on
  rw [result_spanned, result_spanned]
  generalize (p here).result = read at both ⊢
  generalize (q there).result = read' at both ⊢
  cases both with
  | @some read read' known =>
    have spans : Span.move C.left ⟨here.position, read.2.position⟩ =
        Span.move C.right ⟨there.position, read'.2.position⟩ := by
      rw [Span.move, Span.move, on.2, known.2.2]
    exact .some ⟨known.1 _ _ spans, known.2⟩
  | none => exact .none

theorem bounded {within within' : List Char → Parser α}
    (lockstep : ∀ bound bound' : List Char, Lockstep C bound.length bound'.length before
      (within bound) (within' bound') agree behind) :
    Lockstep C m n before (bounded within) (Parser.bounded within') agree behind :=
  fun here there _ _ on => lockstep here.bound there.bound here there (Nat.lt_succ_self _)
    (Nat.lt_succ_self _) on

end Lockstep

end

section
variable {C : Comparison} {m n depth : Nat} {before behind : List Char → List Char → Prop}

theorem lockstep_guardRest {condition : List Char → Bool}
    (same : ∀ s t, before s t → condition s = condition t) :
    Lockstep C m n before (guardRest condition) (guardRest condition) (fun _ _ => True) before := by
  intro here there _ _ on
  unfold guardRest
  rw [same _ _ on.1]
  cases condition there.rest with
  | true => exact .some ⟨trivial, on⟩
  | false => exact .none

theorem Comparison.On.skip {here there : Cursor} (on : C.On before here there) {read s t : List Char}
    (reads : here.rest = read ++ s) (reads' : there.rest = read ++ t) (goesOn : behind s t) :
    C.On behind (here.skip read.length) (there.skip read.length) := by
  refine ⟨?_, ?_⟩
  · simpa [Cursor.skip, reads, reads'] using goesOn
  · simpa [Cursor.skip, reads, reads'] using Comparison.after_eq on.2 read

theorem literal_result {text : String} {cursor : Cursor} {rest : List Char}
    (begins : cursor.rest = text.toList ++ rest) :
    (literal text cursor).result = some ((), cursor.skip text.toList.length) := by
  unfold literal
  rw [if_pos (by rw [begins]; simp)]

theorem literal_none {text : String} {cursor : Cursor} (other : ¬ text.toList <+: cursor.rest) :
    (literal text cursor).result = none := by
  unfold literal
  rw [if_neg (by simpa using other)]

theorem lockstep_literal {text : String} (shares : ∀ s t, before s t →
      (∃ s' t', s = text.toList ++ s' ∧ t = text.toList ++ t' ∧ behind s' t') ∨
        ¬ text.toList <+: s ∧ ¬ text.toList <+: t) :
    Lockstep C m n before (literal text) (literal text) (fun _ _ => True) behind := by
  intro here there _ _ on
  rcases shares _ _ on.1 with ⟨s, t, reads, reads', goesOn⟩ | ⟨neither, nor⟩
  · rw [literal_result reads, literal_result reads']
    exact .some ⟨trivial, on.skip reads reads' goesOn⟩
  · rw [literal_none neither, literal_none nor]
    exact .none

theorem lockstep_mark {text : String} {c : Char} (single : text.toList = [c])
    (unquoted : c ≠ '"') : Lockstep C m n (C.Solid depth) (literal text) (literal text)
      (fun _ _ => True) (C.Behind depth c) := by
  refine lockstep_literal fun s t solid => ?_
  rw [single]
  have elsewhere {text : List Char} (other : text.head? ≠ some c) : ¬ [c] <+: text := by
    rintro ⟨rest, rfl⟩
    exact other rfl
  by_cases begins : s.head? = some c
  · obtain ⟨s, rfl⟩ := List.head?_eq_some_iff.mp begins
    obtain ⟨t, rfl, behind⟩ := solid.tail unquoted
    exact .inl ⟨s, t, rfl, rfl, behind⟩
  · exact .inr ⟨elsewhere begins, elsewhere fun begins' => begins (solid.head.trans begins')⟩

def IsToken (text : String) : Prop :=
  text.toList ≠ [] ∧ text.toList.IsChain (clash · ·) ∧ ∀ c ∈ text.toList, Plain c

instance (text : String) : Decidable (IsToken text) := inferInstanceAs (Decidable (_ ∧ _ ∧ _))

theorem lockstep_token {text : String} (token : IsToken text) :
    Lockstep C m n (C.Solid depth) (literal text) (literal text) (fun _ _ => True)
      (C.Past depth (text.toList.getLast? = some ·)) := by
  refine lockstep_literal fun s t solid => ?_
  obtain ⟨nonempty, chain, plain⟩ := token
  obtain ⟨c, chars, whole⟩ := List.exists_cons_of_ne_nil nonempty
  rw [whole] at chain plain ⊢
  rcases solid.literal chain plain with ⟨s', t', reads, reads', near⟩ | others
  · refine .inl ⟨s', t', reads, reads', chars.getLastD c, ?_, near⟩
    rw [List.getLast?_cons, List.getLastD_eq_getLast?]
  · exact .inr others

theorem lockstep_oneText {α : Type} {choices : List (String × α)} {condition : Char → Prop}
    (tokens : ∀ choice ∈ choices,
      IsToken choice.1 ∧ ∀ x ∈ choice.1.toList.getLast?, condition x) :
    Lockstep C m n (C.Solid depth) (oneText choices) (oneText choices) (· = ·)
      (C.Past depth condition) := by
  induction choices with
  | nil => exact .fail
  | cons choice choices ih =>
    obtain ⟨⟨token, last⟩, others⟩ := List.forall_mem_cons.mp tokens
    refine .or (.bind (lockstep_token token) fun _ _ _ => .pure rfl ?_) (ih others)
    exact fun s t past => past.mono fun x known => last x known

theorem lockstep_wordEnd : Lockstep C m n (C.Past depth (wordPart.contains ·)) wordEnd wordEnd
    (fun _ _ => True) (C.Past depth (wordPart.contains ·)) := by
  refine lockstep_guardRest ?_
  rintro s t ⟨x, part, near⟩
  rcases near.solid_or_apart with solid | ⟨apart, apart'⟩
  · rw [solid.head]
  · have ends {text : List Char} (apart : Apart x text) :
        text.head?.any wordPart.contains = false := by
      have outside := head_of_apart apart part
      cases text with
      | nil => rfl
      | cons y text => exact outside y rfl
    rw [ends apart, ends apart']

theorem lockstep_notBefore {text : String} {y : Char} (single : text.toList = [y])
    {condition : Char → Prop} (joins : ∀ x, condition x → clash x y = true) :
    Lockstep C m n (C.Past depth condition) (notBefore text) (notBefore text)
      (fun _ _ => True) (C.Past depth condition) := by
  refine lockstep_guardRest ?_
  rintro s t ⟨x, known, near⟩
  rw [single]
  have seen (text : List Char) : [y].isPrefixOf text = (text.head? == some y) := by
    cases text with
    | nil => rfl
    | cons c text => simp [List.isPrefixOf, eq_comm]
  rw [seen, seen]
  rcases near.solid_or_apart with solid | ⟨apart, apart'⟩
  · rw [solid.head]
  -- The gaps may begin with different characters, but with none that goes on with the token.
  · have unseen {text : List Char} (apart : Apart x text) : (text.head? == some y) = false := by
      refine beq_false_of_ne fun head => ?_
      have apart := apart y head
      rw [joins x known] at apart
      cases apart
    rw [unseen apart, unseen apart']

theorem lockstep_oneOf {set : CharClass} (plain : ∀ c, set.contains c = true → Plain c) :
    Lockstep C m n (C.Solid depth) (oneOf set) (oneOf set) (· = ·)
      (C.Past depth (set.contains ·)) := by
  intro here there _ _ on
  have head := on.1.head
  unfold oneOf
  rcases start : here.rest with _ | ⟨c, s⟩ <;> rcases start' : there.rest with _ | ⟨c', t⟩ <;>
    rw [start, start'] at head
  · exact .none
  · cases head
  · cases head
  · obtain rfl : c = c' := Option.some.inj head
    dsimp only
    split
    · rename_i member
      have solid := on.1
      rw [start, start'] at solid
      obtain ⟨_, rest, behind⟩ := solid.tail (plain c member).unquoted
      cases rest
      have reads : here.rest = [c] ++ s := start
      have reads' : there.rest = [c] ++ t := start'
      exact .some ⟨rfl, on.skip reads reads' ⟨c, member, behind.near (plain c member)⟩⟩
    · exact .none

theorem lockstep_manyOf {set : CharClass}
    (within : ∀ c, set.contains c = true → wordPart.contains c = true) :
    Lockstep C m n (C.Past depth (wordPart.contains ·)) (manyOf set) (manyOf set) (· = ·)
      (C.Past depth (wordPart.contains ·)) := by
  intro here there _ _ on
  obtain ⟨x, part, near⟩ := on.1
  obtain ⟨same, last, part, s, t, reads, reads', near⟩ := near.run within part
  have past : C.Past depth (wordPart.contains ·) s t := ⟨last, part, near⟩
  have onward := on.skip reads reads' past
  refine .some ⟨same, ?_⟩
  rw [← same]
  exact onward

theorem lockstep_blanks :
    Lockstep C m n (C.Loose depth) blanks blanks (fun _ _ => True) (C.Solid depth) := by
  intro here there _ _ on
  obtain ⟨x, -, near⟩ := on.1
  obtain ⟨before, before', s, t, reads, reads', run, run', fits, solid⟩ := near.skip
  refine .some ⟨trivial, ?_, ?_⟩
  · simp only [Cursor.skip, run, run']
    rw [reads, reads', List.drop_left, List.drop_left]
    exact solid
  -- Different gaps lead to different places, which is allowed only if places are not compared.
  · simp only [Cursor.skip, run, run']
    rw [reads, reads', List.take_left, List.take_left]
    rcases fits with free | rfl
    · exact C.nowhere free _ _
    · exact Comparison.after_eq on.2 before

def Wordy {α : Type} (p : Parser α) : Prop :=
  ∀ cursor value after, (p cursor).result = some (value, after) →
    ∃ y ∈ cursor.rest.head?, wordPart.contains y = true

theorem Wordy.bind {α β : Type} {p : Parser α} {next : α → Parser β} (wordy : Wordy p) :
    Wordy (p >>= next) := by
  intro cursor value after read
  obtain ⟨first, middle, here, -⟩ := bind_some.mp read
  exact wordy cursor first middle here

theorem Wordy.or {α : Type} {p q : Parser α} (first : Wordy p) (second : Wordy q) :
    Wordy (p.or q) := by
  intro cursor value after read
  rcases or_some read with here | here
  · exact first cursor value after here
  · exact second cursor value after here

theorem wordy_oneOf {set : CharClass} (within : ∀ c, set.contains c = true →
    wordPart.contains c = true) : Wordy (oneOf set) := by
  intro cursor c after read
  exact ⟨c, by rw [oneOf_rest read]; rfl, within c (oneOf_contains read)⟩

theorem Lockstep.inWord {α : Type} {p q : Parser α} {agree : α → α → Prop} (wordy : Wordy p)
    (wordy' : Wordy q) (lockstep : Lockstep C m n (C.Solid depth) p q agree behind) :
    Lockstep C m n (C.Past depth (wordPart.contains ·)) p q agree behind := by
  intro here there below below' on
  obtain ⟨x, part, near⟩ := on.1
  rcases near.solid_or_apart with solid | ⟨apart, apart'⟩
  · exact lockstep here there below below' ⟨solid, on.2⟩
  · have fails {r : Parser α} {cursor : Cursor} (wordy : Wordy r) (apart : Apart x cursor.rest) :
        (r cursor).result = none := by
      rcases read : (r cursor).result with _ | ⟨value, after⟩
      · rfl
      · obtain ⟨y, head, inWord⟩ := wordy _ _ _ read
        rw [head_of_apart apart part y head] at inWord
        cases inWord
    rw [fails wordy apart, fails wordy' apart']
    exact .none

end

end LeoFront.Grammar

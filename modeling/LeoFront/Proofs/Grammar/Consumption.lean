import LeoFront.Proofs.Grammar.Advance
import LeoFront.Proofs.RoundTrip.Acceptance

namespace LeoFront
open LeoFront.Parser

variable {α β : Type} {cursor after : Cursor}

theorem literal_rest {text : String} {value : Unit}
    (read : (literal text cursor).result = some (value, after)) :
    cursor.rest = text.toList ++ after.rest := by
  unfold literal at read
  split at read
  · rename_i begins
    cases read
    obtain ⟨rest, whole⟩ := List.isPrefixOf_iff_prefix.mp begins
    simp [Cursor.skip, ← whole]
  · cases read

theorem oneOf_rest {set : CharClass} {c : Char}
    (read : (oneOf set cursor).result = some (c, after)) : cursor.rest = c :: after.rest := by
  unfold oneOf at read
  split at read
  · rename_i whole
    split at read <;> cases read
    simp [Cursor.skip, whole]
  · cases read

theorem oneOf_contains {set : CharClass} {c : Char}
    (read : (oneOf set cursor).result = some (c, after)) : set.contains c = true := by
  unfold oneOf at read
  split at read
  · split at read <;> cases read
    assumption
  · cases read

theorem manyOf_rest {set : CharClass} {run : List Char}
    (read : (manyOf set cursor).result = some (run, after)) : cursor.rest = run ++ after.rest := by
  cases read
  exact (List.prefix_iff_eq_append.mp (List.takeWhile_prefix _)).symm

theorem someOf_rest {set : CharClass} {run : List Char}
    (read : (someOf set cursor).result = some (run, after)) : cursor.rest = run ++ after.rest := by
  obtain ⟨first, _, here, read⟩ := bind_some.mp read
  obtain ⟨rest, _, onward, read⟩ := bind_some.mp read
  cases read
  rw [oneOf_rest here, manyOf_rest onward, List.cons_append]

theorem guardRest_rest {condition : List Char → Bool} {value : Unit}
    (read : (guardRest condition cursor).result = some (value, after)) :
    cursor.rest = after.rest := by
  unfold guardRest at read
  split at read <;> cases read
  rfl

def Consumes {α : Type} (p : Parser α) : Prop :=
  ∀ cursor value after, (p cursor).result = some (value, after) →
    after.rest.length < cursor.rest.length

variable {p : Parser α} {next : α → Parser β}

theorem Consumes.bind [∀ value, Advances (next value)] (consumes : Consumes p) :
    Consumes (p >>= next) := by
  intro cursor value after read
  obtain ⟨first, middle, here, onward⟩ := bind_some.mp read
  have shorter := consumes _ _ _ here
  have further := (Advances.reaches _ _ _ onward).length_le
  exact Nat.lt_of_le_of_lt further shorter

theorem Consumes.guarded [Advances p] (consumes : ∀ value, Consumes (next value)) :
    Consumes (p >>= next) := by
  intro cursor value after read
  obtain ⟨first, middle, here, onward⟩ := bind_some.mp read
  have shorter := consumes first _ _ _ onward
  have further := (Advances.reaches _ _ _ here).length_le
  exact Nat.lt_of_lt_of_le shorter further

theorem Consumes.or {q : Parser α} (first : Consumes p) (second : Consumes q) :
    Consumes (p.or q) := by
  intro cursor value after read
  rcases or_some read with here | here
  · exact first cursor value after here
  · exact second cursor value after here

theorem Consumes.spanned {p : Parser (Span → α)} (consumes : Consumes p) :
    Consumes (Parser.spanned p) := by
  intro cursor value after read
  obtain ⟨make, inner, -⟩ := spanned_some.mp read
  exact consumes cursor make after inner

theorem consumes_fail : Consumes (fail : Parser α) := by
  intro _ _ _ read
  cases read

theorem consumes_literal {text : String} (nonempty : text ≠ "") : Consumes (literal text) := by
  intro cursor value after read
  rw [literal_rest read, List.length_append]
  have positive : 0 < text.toList.length := by
    rw [List.length_pos_iff]
    simpa using nonempty
  omega

theorem consumes_oneOf (set : CharClass) : Consumes (oneOf set) := by
  intro cursor value after read
  rw [oneOf_rest read, List.length_cons]
  exact Nat.lt_succ_self _

theorem consumes_someOf (set : CharClass) : Consumes (someOf set) := (consumes_oneOf set).bind

inductive Repeats (p : Parser α) : Cursor → List α → Cursor → Prop
  | done (cursor : Cursor) : Repeats p cursor [] cursor
  | more {cursor middle after : Cursor} {value : α} {values : List α}
      (here : (p cursor).result = some (value, middle)) (onward : Repeats p middle values after) :
      Repeats p cursor (value :: values) after

variable {values : List α}

theorem Repeats.append {others : List α} {middle : Cursor} (repeats : Repeats p cursor values middle)
    (onward : Repeats p middle others after) : Repeats p cursor (values ++ others) after := by
  induction repeats with
  | done => exact onward
  | more here _ ih => exact .more here (ih onward)

theorem Repeats.reaches [Advances p] (repeats : Repeats p cursor values after) :
    cursor.Reaches after := by
  induction repeats with
  | done cursor => exact .refl cursor
  | more here _ ih => exact (Advances.reaches _ _ _ here).trans ih

theorem manyWithin_result (consumes : Consumes p) {bound : List Char}
    (long : cursor.rest.length < bound.length) : ∃ values after,
      (manyWithin p bound cursor).result = some (values, after) ∧ Repeats p cursor values after ∧
        (p after).result = none := by
  induction bound generalizing cursor with
  | nil => exact absurd long (Nat.not_lt_zero _)
  | cons _ bound ih =>
    unfold manyWithin
    rw [result_or, result_bind]
    rcases here : (p cursor).result with _ | ⟨first, middle⟩
    · exact ⟨[], cursor, rfl, .done cursor, here⟩
    · have shorter := consumes _ _ _ here
      rw [List.length_cons] at long
      have long : middle.rest.length < bound.length := by omega
      obtain ⟨rest, after, later, repeats, stops⟩ := ih long
      refine ⟨first :: rest, after, ?_, .more here repeats, stops⟩
      simp only [result_bind, later]
      rfl

theorem many_result (consumes : Consumes p) (cursor : Cursor) : ∃ values after,
    (many p cursor).result = some (values, after) ∧ Repeats p cursor values after ∧
      (p after).result = none :=
  manyWithin_result consumes (Nat.lt_succ_self _)

theorem Repeats.unique {others : List α} {other : Cursor} (repeats : Repeats p cursor values after)
    (stops : (p after).result = none) (repeats' : Repeats p cursor others other)
    (stops' : (p other).result = none) : values = others ∧ after = other := by
  induction repeats generalizing others with
  | done =>
    cases repeats' with
    | done => exact ⟨rfl, rfl⟩
    | more here _ =>
      rw [stops] at here
      cases here
  | more here _ ih =>
    cases repeats' with
    | done =>
      rw [stops'] at here
      cases here
    | more here' onward =>
      cases here.symm.trans here'
      obtain ⟨rfl, rfl⟩ := ih stops onward
      exact ⟨rfl, rfl⟩

theorem many_eq (consumes : Consumes p) (repeats : Repeats p cursor values after)
    (stops : (p after).result = none) : (many p cursor).result = some (values, after) := by
  obtain ⟨others, other, read, repeats', stops'⟩ := many_result consumes cursor
  obtain ⟨rfl, rfl⟩ := repeats.unique stops repeats' stops'
  exact read

namespace Grammar

theorem oneText_rest {choices : List (String × α)} {value : α}
    (read : (oneText choices cursor).result = some (value, after)) :
    ∃ choice ∈ choices, value = choice.2 ∧ cursor.rest = choice.1.toList ++ after.rest := by
  induction choices with
  | nil => cases read
  | cons choice choices ih =>
    rcases or_some read with here | read
    · obtain ⟨_, _, text, read⟩ := bind_some.mp here
      cases read
      exact ⟨choice, List.mem_cons_self, rfl, literal_rest text⟩
    · obtain ⟨other, member, known⟩ := ih read
      exact ⟨other, List.mem_cons_of_mem _ member, known⟩

theorem oneWord_rest {choices : List (String × α)} {value : α}
    (read : (oneWord choices cursor).result = some (value, after)) :
    ∃ choice ∈ choices, value = choice.2 ∧ cursor.rest = choice.1.toList ++ after.rest := by
  obtain ⟨_, _, here, read⟩ := bind_some.mp read
  obtain ⟨_, _, ends, read⟩ := bind_some.mp read
  cases read
  rw [← guardRest_rest ends]
  exact oneText_rest here

theorem consumes_oneText {choices : List (String × α)}
    (nonempty : ∀ choice ∈ choices, choice.1 ≠ "") : Consumes (oneText choices) := by
  intro cursor value after read
  obtain ⟨choice, member, -, written⟩ := oneText_rest read
  have positive : 0 < choice.1.toList.length := by
    rw [List.length_pos_iff]
    simpa using nonempty choice member
  rw [written, List.length_append]
  omega

theorem consumes_oneWord {choices : List (String × α)}
    (nonempty : ∀ choice ∈ choices, choice.1 ≠ "") : Consumes (oneWord choices) :=
  (consumes_oneText nonempty).bind

theorem consumes_identifier : Consumes identifier :=
  .spanned (.guarded fun _ => (consumes_oneOf wordStart).bind)

end Grammar

end LeoFront

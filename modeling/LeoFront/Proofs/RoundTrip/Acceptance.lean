import LeoFront.Parser.Basic
import Mathlib.Data.List.Forall2

namespace LeoFront.Parser
variable {α β ι : Type} {p q : Parser α} {next : α → Parser β} {text middle rest : List Char}
  {good : α → Prop} {better : β → Prop}

/-- A parser reads a text up to a rest, wherever the text stands, and gives a value that satisfies a
condition. -/
def Accepts (p : Parser α) (text : List Char) (good : α → Prop) (rest : List Char) : Prop :=
  ∀ position, ∃ value after, (p ⟨text, position⟩).result = some (value, ⟨rest, after⟩) ∧ good value

def Rejects (p : Parser α) (text : List Char) : Prop :=
  ∀ position, (p ⟨text, position⟩).result = none

theorem Accepts.imp {other : α → Prop} (accepts : Accepts p text good rest)
    (implied : ∀ value, good value → other value) : Accepts p text other rest := by
  intro position
  obtain ⟨value, after, result, known⟩ := accepts position
  exact ⟨value, after, result, implied value known⟩

theorem accepts_pure {value : α} (known : good value) :
    Accepts (pure value) text good text :=
  fun position => ⟨value, position, rfl, known⟩

theorem result_bind (p : Parser α) (next : α → Parser β) (cursor : Cursor) :
    ((p >>= next) cursor).result =
      match (p cursor).result with
      | none => none
      | some (value, after) => (next value after).result := by
  change (Parser.bind p next cursor).result = _
  unfold Parser.bind
  rcases p cursor with ⟨_ | ⟨value, after⟩, furthest⟩ <;> rfl

theorem Accepts.bind (accepts : Accepts p text good middle)
    (goesOn : ∀ value, good value → Accepts (next value) middle better rest) :
    Accepts (p >>= next) text better rest := by
  intro position
  obtain ⟨value, after, result, known⟩ := accepts position
  obtain ⟨second, final, secondResult, better⟩ := goesOn value known after
  refine ⟨second, final, ?_, better⟩
  rw [result_bind, result]
  exact secondResult

theorem Accepts.bind_rejects (accepts : Accepts p text good middle)
    (stops : ∀ value, good value → Rejects (next value) middle) : Rejects (p >>= next) text := by
  intro position
  obtain ⟨value, after, result, known⟩ := accepts position
  rw [result_bind, result]
  exact stops value known after

theorem Rejects.bind (rejects : Rejects p text) : Rejects (p >>= next) text := by
  intro position
  rw [result_bind, rejects position]

theorem result_or (p q : Parser α) (cursor : Cursor) :
    (p.or q cursor).result = (p cursor).result.or (q cursor).result := by
  unfold Parser.or
  rcases p cursor with ⟨_ | success, furthest⟩ <;> rfl

theorem Accepts.or_left (accepts : Accepts p text good rest) :
    Accepts (p.or q) text good rest := by
  intro position
  obtain ⟨value, after, result, known⟩ := accepts position
  exact ⟨value, after, by rw [result_or, result, Option.some_or], known⟩

theorem Rejects.or_right (rejects : Rejects p text) (accepts : Accepts q text good rest) :
    Accepts (p.or q) text good rest := by
  intro position
  obtain ⟨value, after, result, known⟩ := accepts position
  exact ⟨value, after, by rw [result_or, rejects position, Option.none_or, result], known⟩

theorem Rejects.or (first : Rejects p text) (second : Rejects q text) :
    Rejects (p.or q) text := by
  intro position
  rw [result_or, first position, second position, Option.none_or]

theorem Accepts.firstOf_head {others : List (Parser α)} (accepts : Accepts p text good rest) :
    Accepts (firstOf (p :: others)) text good rest :=
  accepts.or_left

theorem Rejects.firstOf_tail {others : List (Parser α)} (rejects : Rejects p text)
    (accepts : Accepts (firstOf others) text good rest) :
    Accepts (firstOf (p :: others)) text good rest :=
  rejects.or_right accepts

theorem Accepts.optional (accepts : Accepts p text good rest) :
    Accepts p.optional text (fun value => ∃ known, value = some known ∧ good known) rest :=
  (accepts.bind fun value known => accepts_pure ⟨value, rfl, known⟩).or_left

theorem Rejects.optional (rejects : Rejects p text) :
    Accepts p.optional text (· = none) text :=
  rejects.bind.or_right (accepts_pure rfl)

theorem Accepts.spanned {p : Parser (Span → α)}
    (accepts : Accepts p text (fun value => ∀ span, good (value span)) rest) :
    Accepts p.spanned text good rest := by
  intro position
  obtain ⟨value, after, result, known⟩ := accepts position
  refine ⟨value ⟨position, after⟩, after, ?_, known _⟩
  unfold Parser.spanned
  revert result
  rcases p ⟨text, position⟩ with ⟨_ | ⟨value, after⟩, furthest⟩
  · rintro ⟨⟩
  · rintro ⟨⟩
    rfl

theorem Rejects.spanned {p : Parser (Span → α)} (rejects : Rejects p text) :
    Rejects p.spanned text := by
  intro position
  have result := rejects position
  unfold Parser.spanned
  revert result
  rcases p ⟨text, position⟩ with ⟨_ | ⟨value, after⟩, furthest⟩
  · exact fun _ => rfl
  · rintro ⟨⟩

theorem accepts_manyWithin (texts : List ι → List Char) {reads : ι → α → Prop} (items : List ι)
    (each : ∀ item rest, item :: rest <:+ items →
      Accepts p (texts (item :: rest)) (reads item) (texts rest))
    (stop : Rejects p (texts [])) (bound : List Char) (within : items.length < bound.length) :
    Accepts (manyWithin p bound) (texts items) (List.Forall₂ reads items) (texts []) := by
  induction items generalizing bound with
  | nil =>
    rcases bound with _ | ⟨_, bound⟩
    · simp at within
    · exact stop.bind.or_right (accepts_pure .nil)
  | cons item rest ih =>
    rcases bound with _ | ⟨_, bound⟩
    · simp at within
    · have others := ih (fun next rest suffix => each next rest (suffix.trans (List.suffix_cons ..)))
        bound (by simpa using within)
      refine Accepts.or_left ((each item rest List.suffix_rfl).bind fun value known => ?_)
      exact others.bind fun values all => accepts_pure (.cons known all)

theorem accepts_many (texts : List ι → List Char) {reads : ι → α → Prop} (items : List ι)
    (each : ∀ item rest, item :: rest <:+ items →
      Accepts p (texts (item :: rest)) (reads item) (texts rest))
    (stop : Rejects p (texts []))
    (shorter : ∀ item rest, item :: rest <:+ items →
      (texts rest).length < (texts (item :: rest)).length) :
    Accepts p.many (texts items) (List.Forall₂ reads items) (texts []) := by
  have counted {rest : List ι} (suffix : rest <:+ items) :
      rest.length ≤ (texts rest).length := by
    induction rest with
    | nil => simp
    | cons item rest ih =>
      have le := ih ((List.suffix_cons item rest).trans suffix)
      exact Nat.lt_of_le_of_lt le (shorter item rest suffix)
  intro position
  have within : items.length < (Cursor.bound ⟨texts items, position⟩).length :=
    Nat.lt_succ_of_le (counted List.suffix_rfl)
  exact accepts_manyWithin texts items each stop _ within position

theorem map_eq_of_forall₂ {view : α → β} {items values : List α}
    (all : List.Forall₂ (fun item value => view value = view item) items values) :
    values.map view = items.map view := by
  induction all with
  | nil => rfl
  | cons same _ ih => rw [List.map_cons, List.map_cons, same, ih]

end LeoFront.Parser

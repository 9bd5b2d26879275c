import LeoFront.Proofs.Grammar.Consumption
import LeoFront.Proofs.Places.Outline

namespace LeoFront
open LeoFront.Parser

def Cursor.On (source : List Char) (cursor : Cursor) : Prop :=
  ∃ before, source = before ++ cursor.rest ∧ cursor.position = .behind before

variable {source : List Char} {cursor after : Cursor}

theorem Position.behind_append (before text : List Char) :
    (Position.behind before).after text = .behind (before ++ text) := by
  rw [← after_start, ← after_start, after_append]

theorem Cursor.On.ofSource (source : List Char) : (Cursor.ofSource source).On source :=
  ⟨[], rfl, rfl⟩

theorem Cursor.On.position_in (on : cursor.On source) : cursor.position.In source := by
  obtain ⟨before, whole, same⟩ := on
  exact ⟨before, cursor.rest, whole, same⟩

theorem Cursor.On.reaches (on : cursor.On source) (reaches : cursor.Reaches after) :
    after.On source := by
  obtain ⟨before, whole, same⟩ := on
  obtain ⟨read, rest, moved⟩ := reaches
  exact ⟨before ++ read, by rw [whole, rest, List.append_assoc],
    by rw [moved, same, Position.behind_append]⟩

theorem Cursor.Reaches.offset_le (reaches : cursor.Reaches after) :
    cursor.position.offset ≤ after.position.offset := by
  obtain ⟨read, -, moved⟩ := reaches
  rw [moved, Position.after_offset]
  exact Nat.le_add_right ..

theorem Cursor.Reaches.holds {text : List Char} (reaches : cursor.Reaches after)
    (on : cursor.On source) (read : cursor.rest = text ++ after.rest) :
    Span.Holds source ⟨cursor.position, after.position⟩ text := by
  obtain ⟨before, whole, same⟩ := on
  obtain ⟨text', read', moved⟩ := reaches
  obtain rfl : text = text' := List.append_cancel_right (read.symm.trans read')
  exact ⟨before, after.rest, by rw [whole, read, List.append_assoc],
    by rw [moved, same, Position.behind_append]⟩

theorem Cursor.Reaches.offset_lt (reaches : cursor.Reaches after)
    (shorter : after.rest.length < cursor.rest.length) :
    cursor.position.offset < after.position.offset := by
  obtain ⟨read, rest, moved⟩ := reaches
  have nonempty : read ≠ [] := by
    rintro rfl
    rw [rest, List.nil_append] at shorter
    exact Nat.lt_irrefl _ shorter
  rw [moved, Position.after_offset]
  exact Nat.lt_add_of_pos_right (units16_pos nonempty)

variable {α β : Type} {p q : Parser α} {next : α → Parser β} {good : β → List Outline → Prop}
  {before : List Outline} {view : α → List Outline}

/-- Wherever a parser reads a value, the outlines of the value are laid between the places where it
began and where it ended. -/
def Places (source : List Char) (p : Parser α) (view : α → List Outline) : Prop :=
  ∀ cursor value after, cursor.On source → (p cursor).result = some (value, after) →
    Laid source cursor.position.offset after.position.offset (view value)

/-- Wherever a parser reads on behind outlines that are laid, some more are laid with them, and
together they are good for the value. -/
def Lays (source : List Char) (before : List Outline) (p : Parser α)
    (good : α → List Outline → Prop) : Prop :=
  ∀ first cursor value after, cursor.On source →
    Laid source first cursor.position.offset before →
    (p cursor).result = some (value, after) →
    ∃ outlines, good value outlines ∧ Laid source first after.position.offset outlines

namespace Lays

theorem pure {value : β} (known : good value before) :
    Lays source before (Pure.pure value : Parser β) good := by
  intro first cursor _ _ _ laid read
  cases read
  exact ⟨before, known, laid⟩

theorem bind [Advances p] (places : Places source p view)
    (onward : ∀ value, Lays source (before ++ view value) (next value) good) :
    Lays source before (p >>= next) good := by
  intro first cursor value after on laid read
  obtain ⟨head, middle, here, read⟩ := bind_some.mp read
  have reaches := Advances.reaches _ _ _ here
  exact onward head first middle value after (on.reaches reaches)
    (laid.append (places _ _ _ on here)) read

theorem skip [Advances p] (onward : ∀ value, Lays source before (next value) good) :
    Lays source before (p >>= next) good := by
  intro first cursor value after on laid read
  obtain ⟨head, middle, here, read⟩ := bind_some.mp read
  have reaches := Advances.reaches _ _ _ here
  exact onward head first middle value after (on.reaches reaches)
    (laid.mono (Nat.le_refl _) reaches.offset_le) read

theorem last {p : Parser β} {view : β → List Outline} (places : Places source p view)
    (known : ∀ value, good value (before ++ view value)) : Lays source before p good := by
  intro first cursor value after on laid read
  exact ⟨_, known value, laid.append (places _ _ _ on read)⟩

end Lays

namespace Places

theorem of_lays (lays : Lays source [] p fun value outlines => view value = outlines) :
    Places source p view := by
  intro cursor value after on read
  obtain ⟨outlines, rfl, laid⟩ := lays _ cursor value after on (Nat.le_refl _) read
  exact laid

theorem or (first : Places source p view) (second : Places source q view) :
    Places source (p.or q) view := by
  intro cursor value after on read
  rcases or_some read with here | here
  · exact first cursor value after on here
  · exact second cursor value after on here

theorem firstOf_nil : Places source (firstOf []) view := by
  intro _ _ _ _ read
  cases read

theorem optional [Advances p] (places : Places source p view) :
    Places source (optional p) fun value => value.toList.flatMap view := by
  intro cursor value after on read
  rcases or_some read with some | none
  · obtain ⟨value, _, here, read⟩ := bind_some.mp some
    cases read
    simpa using places _ _ _ on here
  · cases none
    exact Nat.le_refl _

theorem manyWithin [Advances p] (places : Places source p view) (bound : List Char) :
    Places source (manyWithin p bound) fun values => values.flatMap view := by
  induction bound with
  | nil => exact of_lays (.pure rfl)
  | cons _ bound ih =>
    refine or (of_lays ?_) (of_lays (.pure rfl))
    exact .bind places fun first => .bind ih fun rest => .pure rfl

theorem many [Advances p] (places : Places source p view) :
    Places source (many p) fun values => values.flatMap view :=
  fun cursor value after on read => places.manyWithin cursor.bound cursor value after on read

theorem spanned {p : Parser (Span → α)} [Advances p]
    (lays : Lays source [] p fun make outlines => ∀ span, view (make span) = outlines) :
    Places source (spanned p) view := by
  intro cursor value after on read
  obtain ⟨make, inner, rfl⟩ := spanned_some.mp read
  obtain ⟨outlines, same, laid⟩ := lays _ cursor make after on (Nat.le_refl _) inner
  rw [same]
  exact laid

theorem node {p : Parser (Span → α)} {view : α → Outline} [Advances p]
    (lays : Lays source [] p fun make outlines =>
      (outlines = [] → Consumes p) ∧ ∀ span, view (make span) = .node span none outlines) :
    Places source (Parser.spanned p) fun value => [view value] := by
  intro cursor value after on read
  obtain ⟨make, inner, rfl⟩ := spanned_some.mp read
  obtain ⟨outlines, ⟨something, same⟩, laid⟩ := lays _ cursor make after on (Nat.le_refl _) inner
  have reaches := Advances.reaches _ _ _ inner
  have lt : cursor.position.offset < after.position.offset := by
    by_cases empty : outlines = []
    · exact reaches.offset_lt (something empty _ _ _ inner)
    · exact laid.lt_of_ne_nil empty
  have placed : (⟨cursor.position, after.position⟩ : Span).start.In source := on.position_in
  obtain ⟨text, holds⟩ := Span.exists_holds placed (on.reaches reaches).position_in
    (Nat.le_of_lt lt)
  change Laid source _ _ [view _]
  rw [same]
  exact Laid.node holds lt nofun laid

theorem leaf {p : Parser (Span → α)} {view : α → Outline} [Advances p] (consumes : Consumes p)
    (spells : ∀ cursor make after, (p cursor).result = some (make, after) →
      ∃ text, cursor.rest = text ++ after.rest ∧
        ∀ span, view (make span) = .node span (some text) []) :
    Places source (Parser.spanned p) fun value => [view value] := by
  intro cursor value after on read
  obtain ⟨make, inner, rfl⟩ := spanned_some.mp read
  obtain ⟨text, rest, same⟩ := spells _ _ _ inner
  have reaches := Advances.reaches _ _ _ inner
  have lt := reaches.offset_lt (consumes _ _ _ inner)
  have tells : ∀ known ∈ some text, text = known := by simp
  change Laid source _ _ [view _]
  rw [same]
  exact Laid.node (reaches.holds on rest) lt tells (Nat.le_of_lt lt)

end Places

end LeoFront

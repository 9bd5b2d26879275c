import LeoFront.Grammar.SyntaxError
import LeoFront.Proofs.Spacing.Derivations
import LeoFront.Proofs.Spacing.Items

namespace LeoFront
open LeoFront.Parser

namespace Grammar
open Piece (textOf)

variable {C : Comparison} {here after : Cursor} {value : Item} {items : List Item}
  {gap t tail : List Char} {piece : Piece} {pieces : List Piece}

def Comparison.upto (C : Comparison) (distinct : ¬ C.same) (rest rest' : List Char) : Comparison :=
  { C with
    after := fun s t => s = rest ∧ t = rest'
    after_same := fun same => absurd same distinct }

theorem item_altered (there : Cursor) (distinct : ¬ C.same) (read : (item here).result = some (value, after))
    (bare : blankRun here.rest = 0)
    (alters : List.Forall₂ C.Alters (Traced.pieces item here) pieces)
    (written : there.rest = textOf pieces ++ t)
    (places : C.left here.position = C.right there.position) :
    blankRun there.rest = 0 ∧ ∃ value' after',
      (item there).result = some (value', after') ∧ C.Agree Item.move value value' ∧
      after'.rest = t ∧ C.left after.position = C.right after'.position := by
  let limited := C.upto distinct after.rest t
  have solid : limited.Solid 0 here.rest there.rest := by
    rw [written]
    exact (frames_item (C := limited) here value after pieces t read alters ⟨rfl, rfl⟩).solid bare
  refine ⟨?_, ?_⟩
  · rcases solid.bare with ⟨-, bare⟩ | ⟨same, -⟩
    · exact bare
    · exact absurd same distinct
  have both := lockstep_item (C := limited) (m := here.rest.length + 1) (n := there.rest.length + 1)
    here there (Nat.lt_succ_self _) (Nat.lt_succ_self _) ⟨solid, places⟩
  rw [read] at both
  rcases read' : (item there).result with _ | ⟨value', after'⟩
  · rw [read'] at both
    cases both
  · rw [read'] at both
    obtain ⟨agree, ⟨-, rest⟩, places⟩ := Option.rel_some_some.mp both
    exact ⟨value', after', rfl, agree, rest, places⟩

theorem consumes_item : Consumes item := by
  have word {text : String} (nonempty : text ≠ "") : Consumes (word text) :=
    (consumes_literal nonempty).bind
  refine .or ?_ (.or ?_ (.or ?_ consumes_fail))
  · exact (Consumes.spanned (word (by decide)).bind).bind
  · exact (Consumes.spanned (consumes_oneWord (by decide)).bind).bind
  · exact (Consumes.spanned (word (by decide)).bind).bind

theorem altered_spacing (skipped : Skipped gap here.rest) (more : here.rest ≠ [])
    (altered : C.Alters (.gap gap) piece) : Spacing piece.text := by
  rcases altered with rfl | ⟨-, respaced⟩
  · exact skipped.spacing more
  · cases respaced with
    | same => exact skipped.spacing more
    | gap _ _ spacing => exact spacing

def Fresh (tail : List Char) : Prop := tail = [] ∨ ∃ rest, tail = '\n' :: rest

theorem blankRun_last (skipped : Skipped gap []) (run : blankRun gap = gap.length)
    (altered : C.Alters (.gap gap) piece) (fresh : Fresh tail) :
    blankRun (piece.text ++ tail) = piece.text.length + blankRun tail := by
  have unaltered (same : piece = .gap gap) :
      blankRun (piece.text ++ tail) = piece.text.length + blankRun tail := by
    subst same
    rcases fresh with rfl | ⟨rest, rfl⟩
    · simpa [Piece.text, blankRun] using run
    · have ended := skipped.ended.blankRun_append rest
      rw [List.append_assoc, List.singleton_append, List.length_append] at ended
      rw [Piece.text, ended, blankRun_blank rfl, List.length_singleton, Nat.add_assoc]
  rcases altered with same | ⟨-, respaced⟩
  · exact unaltered same.symm
  · cases respaced with
    | same => exact unaltered rfl
    | gap _ _ spacing => exact spacing.blankRun_append tail

theorem altered_after {p q : Position} (places : C.left p = C.right q)
    (altered : C.Alters (.gap gap) piece) : C.left (p.after gap) = C.right (q.after piece.text) := by
  rcases altered with rfl | ⟨free, -⟩
  · exact Comparison.after_eq places gap
  · exact C.nowhere free _ _

abbrev entry : Parser Item := do
  let item ← item
  blanks
  return item

theorem consumes_entry : Consumes entry := consumes_item.bind

theorem entry_eq {middle : Cursor} (read : (item here).result = some (value, middle)) :
    (entry here).result = some (value, middle.skip (blankRun middle.rest)) := by
  rw [result_bind, read]
  rfl

theorem entry_some (read : (entry here).result = some (value, after)) : ∃ middle gap,
    (item here).result = some (value, middle) ∧ blankRun (gap ++ after.rest) = gap.length ∧
      Skipped gap after.rest ∧ after.position = middle.position.after gap ∧
      Traced.pieces entry here = Traced.pieces item here ++ [.gap gap] := by
  obtain ⟨_, middle, first, onward⟩ := bind_some.mp read
  obtain ⟨gap, rest, whole, run, skipped⟩ := exists_skipped middle.rest
  cases (entry_eq first).symm.trans read
  have divided : Traced.pieces entry here = Traced.pieces item here ++
      [.gap (middle.rest.take (blankRun middle.rest))] := by
    rw [pieces_bind first, pieces_bind (p := blanks) rfl]
    rfl
  rw [run, whole, List.take_left] at divided
  have left : (middle.skip (blankRun middle.rest)).rest = rest := by
    rw [run, Cursor.skip, whole, List.drop_left]
  refine ⟨middle, gap, first, ?_, left ▸ skipped, ?_, divided⟩
  · rw [left, ← whole, run]
  · rw [run, Cursor.skip, whole, List.take_left]

theorem entries_none {there : Cursor} (fresh : Fresh tail) (skipped : Skipped gap here.rest)
    (run : blankRun (gap ++ here.rest) = gap.length) (stops : here.rest = [])
    (altered : C.Alters (.gap gap) piece) (written : there.rest = piece.text ++ tail) :
    (there.skip (blankRun there.rest)).rest = tail.drop (blankRun tail) := by
  rw [stops] at skipped run
  rw [List.append_nil] at run
  have last := blankRun_last skipped run altered fresh
  simp only [Cursor.skip, written, last]
  rw [List.drop_append]
  simp

/-- In the second text stands an altered gap, altered entries, and something behind them on a new
line. The entries are read again, and the gap behind the last goes on into what comes behind. -/
theorem entries_altered {there : Cursor} {bound : List Char} (distinct : ¬ C.same)
    (fresh : Fresh tail)
    (skipped : Skipped gap here.rest) (run : blankRun (gap ++ here.rest) = gap.length)
    (read : (manyWithin entry bound here).result = some (items, after)) (stops : after.rest = [])
    (altered : C.Alters (.gap gap) piece)
    (alters : List.Forall₂ C.Alters (Traced.pieces (manyWithin entry bound) here) pieces)
    (written : there.rest = piece.text ++ (textOf pieces ++ tail))
    (places : C.left here.position = C.right (there.position.after piece.text)) :
    ∃ items' after', Repeats entry (there.skip (blankRun there.rest)) items' after' ∧
      items.map (Item.move C.left) = items'.map (Item.move C.right) ∧
      after'.rest = tail.drop (blankRun tail) := by
  induction bound generalizing here there gap piece pieces items with
  | nil =>
    cases read
    cases alters
    exact ⟨[], _, .done _, rfl, entries_none fresh skipped run stops altered written⟩
  | cons c bound ih =>
    rcases pieces_manyWithin read with ⟨rfl, rfl, divided⟩ |
      ⟨head, between, rest, rfl, first, later, divided⟩
    · rw [divided] at alters
      cases alters
      exact ⟨[], _, .done _, rfl, entries_none fresh skipped run stops altered written⟩
    obtain ⟨middle, gap', itself, run', skipped', place, divided'⟩ := entry_some first
    rw [divided, divided', List.append_assoc] at alters
    obtain ⟨own, others, rfl, own_alters, alters⟩ := forall₂_append alters
    obtain ⟨piece', others, altered', onward_alters, rfl⟩ := List.forall₂_cons_left_iff.mp alters
    -- the item follows the altered gap
    have consumed := consumes_item _ _ _ itself
    have spacing := altered_spacing skipped (by rintro empty; simp [empty] at consumed) altered
    let start : Cursor := ⟨textOf own ++ (piece'.text ++ (textOf others ++ tail)),
      there.position.after piece.text⟩
    obtain ⟨bare, value', onward, read', agree, left, places'⟩ :=
      item_altered start distinct itself skipped.bare own_alters rfl places
    have here : there.skip (blankRun there.rest) = start := by
      have length : blankRun there.rest = piece.text.length := by
        rw [written, spacing.blankRun_append]
        simpa [start] using bare
      rw [length]
      simp [Cursor.skip, written, start]
    obtain ⟨items', after', repeats, same, remains⟩ := ih skipped' run' later altered'
      onward_alters left (place ▸ altered_after places' altered')
    refine ⟨value' :: items', after', ?_, ?_, remains⟩
    · rw [here]
      exact .more (entry_eq read') repeats
    · rw [List.map_cons, List.map_cons, same]
      exact congrArg (· :: _) agree

abbrev firstEntry (source : List Char) : Cursor := (Cursor.ofSource source).skip (blankRun source)

def fileOf (items : List Item) (span : Span) : File :=
  ⟨items.filterMap Item.statement?, items.filterMap Item.declaration?, span⟩

theorem file_eq (repeats : Repeats entry (here.skip (blankRun here.rest)) items after)
    (stops : (entry after).result = none) :
    (file here).result = some (fileOf items ⟨here.position, after.position⟩, after) := by
  have blank : (blanks here).result = some ((), here.skip (blankRun here.rest)) := rfl
  unfold file
  rw [result_spanned, result_bind, blank]
  dsimp only
  rw [result_bind, many_eq consumes_entry repeats stops]
  rfl

theorem file_some {parsed : File} (read : (file here).result = some (parsed, after)) :
    ∃ gap start items, blankRun (gap ++ start.rest) = gap.length ∧ Skipped gap start.rest ∧
      start.position = here.position.after gap ∧
      (many entry start).result = some (items, after) ∧
      parsed = fileOf items ⟨here.position, after.position⟩ ∧
      Traced.pieces file here = .gap gap :: Traced.pieces (many entry) start := by
  obtain ⟨make, inner, rfl⟩ := spanned_some.mp read
  obtain ⟨_, start, blank, inner⟩ := bind_some.mp inner
  obtain ⟨items, _, repeated, inner⟩ := bind_some.mp inner
  cases inner
  let items_of := do
    let items ← many entry
    return fun span => fileOf items span
  have divided : Traced.pieces file here =
      Traced.pieces (blanks >>= fun _ => items_of) here := rfl
  rw [pieces_bind blank, pieces_bind repeated] at divided
  obtain ⟨gap, rest, whole, run, skipped⟩ := exists_skipped here.rest
  cases blank
  rw [run] at repeated divided
  have left : (here.skip gap.length).rest = rest := by rw [Cursor.skip, whole, List.drop_left]
  refine ⟨gap, here.skip gap.length, items, ?_, left ▸ skipped, ?_, repeated, rfl, ?_⟩
  · rw [left, ← whole, run]
  · rw [Cursor.skip, whole, List.take_left]
  · have skips : Traced.pieces blanks here = [.gap gap] := by
      change [Piece.gap (here.rest.take (blankRun here.rest))] = _
      rw [run, whole, List.take_left]
    rw [divided, skips]
    exact congrArg (_ :: ·) (List.append_nil _)

theorem file_altered {parsed : File} (there : Cursor) (distinct : ¬ C.same) (fresh : Fresh tail)
    (read : (file here).result = some (parsed, after)) (stops : after.rest = [])
    (alters : List.Forall₂ C.Alters (Traced.pieces file here) pieces)
    (written : there.rest = textOf pieces ++ tail)
    (places : C.left here.position = C.right there.position) :
    ∃ items items' after', parsed = fileOf items ⟨here.position, after.position⟩ ∧
      Repeats entry (there.skip (blankRun there.rest)) items' after' ∧
      items.map (Item.move C.left) = items'.map (Item.move C.right) ∧
      after'.rest = tail.drop (blankRun tail) := by
  obtain ⟨gap, start, items, run, skipped, place, repeated, made, divided⟩ := file_some read
  rw [divided] at alters
  obtain ⟨piece, others, altered, onward, rfl⟩ := List.forall₂_cons_left_iff.mp alters
  rw [Piece.textOf_cons, List.append_assoc] at written
  obtain ⟨items', after', repeats, same, remains⟩ := entries_altered distinct fresh skipped run
    repeated stops altered onward written (place ▸ altered_after places altered)
  exact ⟨items, items', after', made, repeats, same, remains⟩

end Grammar

variable {source : List Char} {name : Option String} {parsed : File} {items : List Grammar.Item}
  {after : Cursor}

theorem File.parseChars_ok_iff : File.parseChars source name = .ok parsed ↔ ∃ after,
    (Grammar.file (.ofSource source)).result = some (parsed, after) ∧ after.rest = [] := by
  unfold File.parseChars Parser.run
  dsimp only
  split
  · rename_i position read
    simp [read, eq_comm]
  · rename_i other read
    simp only [read, reduceCtorEq, false_iff]
    rintro ⟨⟨_, position⟩, same, rfl⟩
    cases same
    exact other position rfl
  · rename_i read
    simp [read]

theorem Grammar.entry_at_end (ended : after.rest = []) : (Grammar.entry after).result = none := by
  rcases read : (Grammar.entry after).result with _ | ⟨value, onward⟩
  · rfl
  · have shorter := Grammar.consumes_entry _ _ _ read
    rw [ended] at shorter
    exact absurd shorter (Nat.not_lt_zero _)

theorem File.parseChars_of_repeats
    (repeats : Repeats Grammar.entry (Grammar.firstEntry source) items after)
    (stops : (Grammar.entry after).result = none) :
    File.parseChars source name = .ok parsed ↔
      after.rest = [] ∧ parsed = Grammar.fileOf items ⟨.start, after.position⟩ := by
  have read : (Grammar.file (.ofSource source)).result = _ := Grammar.file_eq repeats stops
  rw [File.parseChars_ok_iff, read]
  constructor
  · rintro ⟨_, same, ended⟩
    cases same
    exact ⟨ended, rfl⟩
  · rintro ⟨ended, rfl⟩
    exact ⟨after, rfl, ended⟩

end LeoFront

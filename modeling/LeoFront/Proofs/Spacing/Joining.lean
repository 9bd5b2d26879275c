import LeoFront.Proofs.Places.Reading
import LeoFront.Proofs.Spacing.Respacing

namespace LeoFront
open LeoFront.Parser

/-- A place of a text that begins on a new line behind another text. -/
def Position.below (above : List Char) (place : Position) : Position :=
  ⟨place.line + above.count '\n' + 1, place.column, place.offset + Text.units16 above + 1⟩

theorem Position.below_next (above : List Char) (p : Position) (c : Char) :
    (p.next c).below above = (p.below above).next c := by
  unfold next below
  split <;> simp <;> omega

theorem Position.below_after (above : List Char) (p : Position) (text : List Char) :
    (p.after text).below above = (p.below above).after text := by
  induction text generalizing p with
  | nil => rfl
  | cons c text ih => rw [after_cons, after_cons, ih, below_next]

theorem Position.below_behind (above text : List Char) :
    (behind text).below above = behind (above ++ '\n' :: text) := by
  have line : Position.start.below above = behind (above ++ ['\n']) := by
    have unit : Text.charUnits16 '\n' = 1 := by decide
    rw [below, behind, lastLine_append]
    simp [start, unit, Nat.add_comm]
  rw [← after_start, below_after, line, behind_append, List.append_assoc]
  rfl

theorem Cursor.On.below {above text : List Char} {here there : Cursor} (on : here.On text)
    (on' : there.On (above ++ '\n' :: text)) (rest : here.rest = there.rest) :
    here.position.below above = there.position := by
  obtain ⟨lead, whole, place⟩ := on
  obtain ⟨lead', whole', place'⟩ := on'
  have same : (above ++ '\n' :: lead) ++ there.rest = lead' ++ there.rest := by
    rw [← whole', List.append_assoc, List.cons_append, ← rest, ← whole]
  rw [place, place', ← List.append_cancel_right same, Position.below_behind]

namespace Grammar

def Comparison.below (above : List Char) : Comparison where
  left := .below above
  right := id
  free := False
  same := True
  after s t := s = t
  next p q c same := by rw [Position.below_next, same]; rfl
  nowhere := nofun
  after_same _ _ := rfl

variable {here there after : Cursor} {items : List Item} {above : List Char}

theorem entries_below (repeats : Repeats entry here items after)
    (stops : (entry after).result = none) (rest : here.rest = there.rest)
    (places : here.position.below above = there.position) : ∃ after',
      Repeats entry there (items.map (Item.move (.below above))) after' ∧
      (entry after').result = none ∧ after.rest = after'.rest := by
  -- Texts that are equal are related before and behind every entry: nothing is asked of them.
  let C := Comparison.below above
  have blank {m n : Nat} :
      Lockstep C m n (· = ·) blanks blanks (fun _ _ => True) (· = ·) := by
    intro here there _ _ on
    obtain ⟨gap, rest, whole, run, -⟩ := exists_skipped here.rest
    have same : here.rest = there.rest := on.1
    have onward : C.On (· = ·) (here.skip gap.length) (there.skip gap.length) :=
      on.skip whole (same ▸ whole) rfl
    refine .some ⟨trivial, ?_⟩
    rw [← run] at onward
    rw [← same]
    exact onward
  have entries {m n : Nat} : Lockstep C m n (· = ·) entry entry (C.Agree Item.move) (· = ·) :=
    .bind (lockstep_item.of_before fun s t same => same ▸ .same trivial) fun _ _ same =>
      .bind blank fun _ _ _ => .pure same fun _ _ => id
  obtain ⟨items', after', repeats', stops', same, on⟩ := entries.repeats repeats stops
    (Nat.lt_succ_self _) (Nat.lt_succ_self _) ⟨rest, places⟩
  have unmoved : items'.map (Item.move C.right) = items' := Item.map_move_id items'
  rw [unmoved] at same
  exact ⟨after', same ▸ repeats', stops', on.1⟩

theorem entries_above {above : List Char} {name : Option String} {parsed : File}
    (accepted : File.parseChars above name = .ok parsed) (text : List Char) :
    ∃ items span middle, parsed = fileOf items span ∧
      Repeats entry (firstEntry (above ++ '\n' :: text)) items middle ∧
      (firstEntry text).rest = middle.rest := by
  obtain ⟨after, read, ended⟩ := File.parseChars_ok_iff.mp accepted
  have whole := Traced.whole _ _ _ read
  rw [ended, List.append_nil] at whole
  have written : above ++ '\n' :: text =
      Piece.textOf (Traced.pieces file (.ofSource above)) ++ '\n' :: text := by
    rw [← whole]
    rfl
  obtain ⟨items, items', middle, rfl, repeats, same, remains⟩ := file_altered
    (C := .equal) (.ofSource (above ++ '\n' :: text)) id (.inr ⟨_, rfl⟩) read ended
    (List.forall₂_same.mpr fun _ _ => .inl rfl) written rfl
  obtain rfl : items = items' := by
    simpa [Comparison.equal, Item.map_move_id] using same
  refine ⟨items, _, middle, rfl, repeats, ?_⟩
  rw [remains, blankRun_blank rfl, Nat.add_comm, List.drop_succ_cons]
  rfl

end Grammar

theorem File.parse_below {above text : String} {name name' name'' : Option String} {file : File}
    (parsed : File.parse above name = .ok file) :
    ((∃ joined, File.parse (above ++ "\n" ++ text) name' = .ok joined) ↔
      ∃ lower, File.parse text name'' = .ok lower) ∧
    ∀ joined lower, File.parse (above ++ "\n" ++ text) name' = .ok joined →
      File.parse text name'' = .ok lower →
      joined.imports = file.imports ++ lower.imports.map (Import.move (.below above.toList)) ∧
      joined.declarations =
        file.declarations ++ lower.declarations.map (Declaration.move (.below above.toList)) := by
  obtain ⟨items, span, middle, rfl, repeats, rest⟩ := Grammar.entries_above parsed text.toList
  obtain ⟨lowers, stop, -, repeats', stops⟩ :=
    many_result Grammar.consumes_entry (Grammar.firstEntry text.toList)
  have on := (Cursor.On.ofSource text.toList).reaches (.skip _ (Grammar.blankRun text.toList))
  have on' := (Cursor.On.ofSource (above.toList ++ '\n' :: text.toList)).reaches
    ((Cursor.Reaches.skip _ _).trans repeats.reaches)
  obtain ⟨stop', repeats'', stops', left⟩ :=
    Grammar.entries_below repeats' stops rest (on.below on' rest)
  have joins (joined : File) :
      File.parseChars (above.toList ++ '\n' :: text.toList) name' = .ok joined ↔ _ :=
    File.parseChars_of_repeats (repeats.append repeats'') stops'
  have alone (lower : File) : File.parseChars text.toList name'' = .ok lower ↔ _ :=
    File.parseChars_of_repeats repeats' stops
  have below : (above ++ "\n" ++ text).toList = above.toList ++ '\n' :: text.toList := by simp
  simp only [File.parse, below, joins, alone]
  refine ⟨?_, ?_⟩
  · rw [left]
    constructor
    · rintro ⟨joined, ended, -⟩
      exact ⟨_, ended, rfl⟩
    · rintro ⟨lower, ended, -⟩
      exact ⟨_, ended, rfl⟩
  · rintro joined lower ⟨-, rfl⟩ ⟨-, rfl⟩
    have moved := Grammar.move_fileOf (.below above.toList) lowers ⟨.start, stop.position⟩
    have imports := congrArg File.imports moved
    have declarations := congrArg File.declarations moved
    simp only [Grammar.fileOf, File.move, List.filterMap_append] at imports declarations ⊢
    rw [imports, declarations]
    exact ⟨rfl, rfl⟩

def openComment : String := "import a.b; // 😀 /*"

theorem openComment_below : ∃ file joined lower, File.parse openComment none = .ok file ∧
    File.parse (openComment ++ "\n" ++ " circuit C \x7bx: u8\x7d") none = .ok joined ∧
    File.parse " circuit C \x7bx: u8\x7d" none = .ok lower ∧
    joined.imports =
      file.imports ++ lower.imports.map (Import.move (.below openComment.toList)) ∧
    joined.declarations =
      file.declarations ++ lower.declarations.map (Declaration.move (.below openComment.toList)) := by
  have accepted : (File.parse openComment none).isOk := by decide +kernel
  have accepted' : (File.parse " circuit C \x7bx: u8\x7d" none).isOk := by decide +kernel
  obtain ⟨file, parsed⟩ := exists_of_isOk accepted
  obtain ⟨lower, parsed'⟩ := exists_of_isOk accepted'
  obtain ⟨both, nodes⟩ := File.parse_below parsed
  obtain ⟨joined, whole⟩ := both.mpr ⟨lower, parsed'⟩
  exact ⟨file, joined, lower, parsed, whole, parsed', nodes joined lower whole parsed'⟩

end LeoFront

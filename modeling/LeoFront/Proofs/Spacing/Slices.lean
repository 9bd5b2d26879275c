import LeoFront.Proofs.Grammar.Nesting
import LeoFront.Proofs.Spacing.Joining

namespace LeoFront
open LeoFront.Parser
open Text (units16)

/-- A place of a text that begins behind another text, on the same line. On the first line, where the
column counts all units before it, columns go on from those of the other text. -/
def Position.beyond (before : List Char) (place : Position) : Position :=
  ⟨place.line + before.count '\n',
    if place.column = place.offset + 1 then place.column + units16 (lastLine before)
    else place.column,
    place.offset + units16 before⟩

theorem Position.beyond_next (before : List Char) (p : Position) (c : Char) :
    (p.next c).beyond before = (p.beyond before).next c := by
  unfold next
  by_cases newline : c = '\n'
  · simp only [newline, if_true, beyond]
    rw [if_neg (by omega), Position.mk.injEq]
    exact ⟨by omega, rfl, by omega⟩
  · simp only [newline, if_false, beyond, Position.mk.injEq]
    refine ⟨trivial, ?_, by omega⟩
    split <;> split <;> omega

theorem Position.beyond_start (before : List Char) : start.beyond before = behind before := by
  simp [beyond, start, behind]

def Grammar.Comparison.beyond (before : List Char) : Grammar.Comparison where
  left := id
  right := .beyond before
  free := False
  same := False
  after _ _ := True
  next p q c same := by
    rw [Position.beyond_next, ← same]
    rfl
  nowhere := nofun
  after_same := nofun

def Declaration.keyword : Declaration → String
  | .circuit declared => if declared.isRecord then "record" else "circuit"
  | .function _ => "function"

def Declaration.span : Declaration → Span
  | .circuit declared => declared.span
  | .function declared => declared.span

/-- A declaration is what stands at its span: the stretch there begins with its keyword, and is by
itself a source that this declaration is all of. -/
def Declaration.Fills (source : List Char) (declaration : Declaration) : Prop :=
  ∃ before slice rest, source = before ++ slice ++ rest ∧
    declaration.span = ⟨.behind before, .behind (before ++ slice)⟩ ∧
    declaration.keyword.toList <+: slice ∧
    ∃ alone : Declaration, alone.move (.beyond before) = declaration ∧
      ∀ name, File.parse (String.ofList slice) name = .ok ⟨[], [alone], ⟨.start, .behind slice⟩⟩

theorem Declaration.keyword_move (shift : Position → Position) (declaration : Declaration) :
    (declaration.move shift).keyword = declaration.keyword := by
  cases declaration <;> rfl

namespace Grammar
variable {here after : Cursor} {value : Item}

theorem circuit_spelled {declared : Circuit}
    (read : (circuit here).result = some (declared, after)) :
    declared.span = ⟨here.position, after.position⟩ ∧
      (Declaration.circuit declared).keyword.toList <+: here.rest := by
  obtain ⟨make, inner, rfl⟩ := spanned_some.mp read
  obtain ⟨isRecord, _, kind, inner⟩ := bind_some.mp inner
  obtain ⟨choice, member, same, written⟩ := oneWord_rest kind
  obtain ⟨_, _, _, inner⟩ := bind_some.mp inner
  obtain ⟨name, _, _, inner⟩ := bind_some.mp inner
  obtain ⟨_, _, _, inner⟩ := bind_some.mp inner
  obtain ⟨_, _, _, inner⟩ := bind_some.mp inner
  obtain ⟨_, _, _, inner⟩ := bind_some.mp inner
  obtain ⟨members, _, _, inner⟩ := bind_some.mp inner
  obtain ⟨_, _, _, inner⟩ := bind_some.mp inner
  obtain ⟨_, _, _, inner⟩ := bind_some.mp inner
  cases inner
  refine ⟨rfl, ?_⟩
  have spelled : ∀ choice ∈ [("circuit", false), ("record", true)],
      (if choice.2 then "record" else "circuit") = choice.1 := by
    decide
  rw [written, ← spelled choice member, ← same]
  exact List.prefix_append _ _

theorem function_spelled {declared : FunctionDecl}
    (read : (function here).result = some (declared, after)) :
    declared.span = ⟨here.position, after.position⟩ ∧ "function".toList <+: here.rest := by
  obtain ⟨make, inner, rfl⟩ := spanned_some.mp read
  obtain ⟨_, _, keyword, inner⟩ := bind_some.mp inner
  obtain ⟨_, _, first, -⟩ := bind_some.mp keyword
  obtain ⟨_, _, _, inner⟩ := bind_some.mp inner
  obtain ⟨name, _, _, inner⟩ := bind_some.mp inner
  obtain ⟨_, _, _, inner⟩ := bind_some.mp inner
  obtain ⟨_, _, _, inner⟩ := bind_some.mp inner
  obtain ⟨_, _, _, inner⟩ := bind_some.mp inner
  obtain ⟨inputs, _, _, inner⟩ := bind_some.mp inner
  obtain ⟨_, _, _, inner⟩ := bind_some.mp inner
  obtain ⟨_, _, _, inner⟩ := bind_some.mp inner
  obtain ⟨_, _, _, inner⟩ := bind_some.mp inner
  obtain ⟨output, _, _, inner⟩ := bind_some.mp inner
  obtain ⟨body, _, _, inner⟩ := bind_some.mp inner
  cases inner
  exact ⟨rfl, literal_rest first ▸ List.prefix_append _ _⟩

theorem item_spelled {declaration : Declaration}
    (read : (item here).result = some (.declaration declaration, after)) :
    declaration.span = ⟨here.position, after.position⟩ ∧
      declaration.keyword.toList <+: here.rest := by
  rcases or_some read with imported | read
  · obtain ⟨_, _, _, read⟩ := bind_some.mp imported
    cases read
  rcases or_some read with declared | read
  · obtain ⟨_, _, within, read⟩ := bind_some.mp declared
    cases read
    exact circuit_spelled within
  rcases or_some read with declared | none
  · obtain ⟨_, _, within, read⟩ := bind_some.mp declared
    cases read
    exact function_spelled within
  · cases none

theorem bare_of_keyword {declaration : Declaration} {text : List Char}
    (begins : declaration.keyword.toList <+: text) : blankRun text = 0 := by
  have spelled : ∀ keyword ∈ ["record", "circuit", "function"], ∀ c ∈ keyword.toList.head?,
      isBlank c = false ∧ c ≠ '/' := by
    decide
  have nonempty : ∀ keyword ∈ ["record", "circuit", "function"], keyword.toList ≠ [] := by decide
  have among : declaration.keyword ∈ ["record", "circuit", "function"] := by
    cases declaration with
    | circuit declared => cases kind : declared.isRecord <;> simp [Declaration.keyword, kind]
    | function declared => simp [Declaration.keyword]
  obtain ⟨rest, rfl⟩ := begins
  obtain ⟨c, chars, same⟩ := List.exists_cons_of_ne_nil (nonempty _ among)
  obtain ⟨visible, slash⟩ := spelled _ among c (by rw [same]; rfl)
  rw [same]
  exact blankRun_visible visible slash

theorem item_alone {declaration : Declaration} {before : List Char}
    (read : (item here).result = some (.declaration declaration, after))
    (place : here.position = .behind before) : ∃ slice alone,
      here.rest = slice ++ after.rest ∧ alone.move (.beyond before) = declaration ∧
      after.position = .behind (before ++ slice) ∧ declaration.keyword.toList <+: slice ∧
      ∀ name, File.parseChars slice name = .ok ⟨[], [alone], ⟨.start, .behind slice⟩⟩ := by
  have bare := bare_of_keyword (item_spelled read).2
  have whole := Traced.whole _ _ _ read
  let slice := Piece.textOf (Traced.pieces item here)
  have places : here.position = (Cursor.ofSource slice).position.beyond before :=
    place.trans (Position.beyond_start before).symm
  obtain ⟨bare', value', after', read', agree, ended, -⟩ := item_altered (C := .beyond before)
    (.ofSource slice) id read bare (List.forall₂_same.mpr fun _ _ => .inl rfl)
    (List.append_nil _).symm places
  have moved : Item.declaration declaration = value'.move (.beyond before) := by
    exact (Item.move_id _).symm.trans agree
  cases value' with
  | statement imported => cases moved
  | declaration alone =>
    have start : firstEntry slice = .ofSource slice := by
      rw [firstEntry, show blankRun slice = 0 from bare']
      rfl
    have repeats : Repeats entry (firstEntry slice) [.declaration alone]
        (after'.skip (blankRun after'.rest)) := start ▸ .more (entry_eq read') (.done _)
    have stop : (after'.skip (blankRun after'.rest)) = ⟨[], .behind slice⟩ := by
      obtain ⟨text, rest, moved⟩ := Advances.reaches _ _ _ read'
      rw [ended, List.append_nil] at rest
      have none : after' = ⟨[], .behind slice⟩ := by
        rw [← Position.after_start, show slice = text from rest]
        exact congrArg₂ Cursor.mk ended moved
      rw [none]
      rfl
    rw [stop] at repeats
    have same := Item.declaration.inj moved
    refine ⟨slice, alone, whole, same.symm, ?_, ?_, fun name => ?_⟩
    · obtain ⟨text, rest, moved⟩ := Advances.reaches _ _ _ read
      rw [moved, place, Position.behind_append, List.append_cancel_right (rest.symm.trans whole)]
    · rw [same, Declaration.keyword_move]
      exact (item_spelled read').2
    · exact (File.parseChars_of_repeats repeats (entry_at_end rfl)).mpr ⟨rfl, rfl⟩

theorem file_declaration {file : File} (read : (Grammar.file here).result = some (file, after)) :
    ∀ declaration ∈ file.declarations, ReadBehind item here (.declaration declaration) := by
  obtain ⟨make, inner, rfl⟩ := spanned_some.mp read
  obtain ⟨_, _, blank, inner⟩ := readBehind_bind inner
  obtain ⟨items, _, repeated, inner⟩ := bind_some.mp inner
  cases inner
  intro declaration member
  obtain ⟨item, among, declares⟩ := List.mem_filterMap.mp member
  obtain ⟨here, _, further, read⟩ := mem_many repeated among
  obtain ⟨_, onward, inside, read⟩ := bind_some.mp read
  obtain ⟨_, _, _, read⟩ := bind_some.mp read
  cases read
  cases item with
  | statement imported => cases declares
  | declaration declared =>
    cases declares
    exact ⟨here, onward, blank.trans further, inside⟩

end Grammar

theorem File.parse_declaration {text : String} {name : Option String} {file : File}
    (parsed : File.parse text name = .ok file) :
    ∀ declaration ∈ file.declarations, declaration.Fills text.toList := by
  intro declaration member
  obtain ⟨_, read, -⟩ := File.parseChars_ok_iff.mp parsed
  obtain ⟨here, after, reaches, read⟩ := Grammar.file_declaration read declaration member
  obtain ⟨before, whole, place⟩ := (Cursor.On.ofSource text.toList).reaches reaches
  obtain ⟨slice, alone, rest, moved, stop, keyword, accepted⟩ := Grammar.item_alone read place
  refine ⟨before, slice, after.rest, by rw [whole, rest, List.append_assoc], ?_, keyword, alone,
    moved, fun name => ?_⟩
  · rw [(Grammar.item_spelled read).1, place, stop]
  · rw [File.parse, String.toList_ofList]
    exact accepted name

end LeoFront

import LeoFront.Proofs.Spacing.Entries

namespace LeoFront
open LeoFront.Parser

def File.move (shift : Position → Position) (file : File) : File :=
  ⟨file.imports.map (Import.move shift), file.declarations.map (Declaration.move shift),
    file.span.move shift⟩

theorem File.move_nowhere (file : File) : file.move .nowhere = file.erase := by
  simp only [File.move, funext Import.move_nowhere, funext Declaration.move_nowhere]
  rfl

theorem Grammar.move_fileOf (shift : Position → Position) (items : List Grammar.Item) (span : Span) :
    (fileOf items span).move shift = fileOf (items.map (Item.move shift)) (span.move shift) := by
  have statement (item : Item) :
      (item.move shift).statement? = item.statement?.map (Import.move shift) := by
    cases item <;> rfl
  have declaration (item : Item) :
      (item.move shift).declaration? = item.declaration?.map (Declaration.move shift) := by
    cases item <;> rfl
  simp only [fileOf, File.move, List.map_filterMap, List.filterMap_map, Function.comp_def,
    statement, declaration]

def Grammar.Comparison.spacing : Grammar.Comparison where
  left := .nowhere
  right := .nowhere
  free := True
  same := False
  after _ _ := False
  next _ _ _ _ := rfl
  nowhere _ _ _ := rfl
  after_same := nofun

def Grammar.Comparison.equal : Grammar.Comparison where
  left := id
  right := id
  free := False
  same := False
  after _ _ := False
  next _ _ c same := congrArg (Position.next · c) same
  nowhere := nofun
  after_same := nofun

theorem File.textOf_pieces {text : String} {name : Option String} {file : File}
    (parsed : File.parse text name = .ok file) : Piece.textOf (File.pieces text) = text.toList := by
  obtain ⟨after, read, ended⟩ := File.parseChars_ok_iff.mp parsed
  have whole := Traced.whole _ _ _ read
  rw [ended, List.append_nil] at whole
  exact whole.symm

theorem File.parse_respaced {text : String} {name name' : Option String} {file : File}
    {pieces : List Piece} (parsed : File.parse text name = .ok file)
    (respaced : List.Forall₂ Piece.Respaced (File.pieces text) pieces) :
    Piece.textOf (File.pieces text) = text.toList ∧ ∃ file',
      File.parse (String.ofList (Piece.textOf pieces)) name' = .ok file' ∧
      file'.erase = file.erase := by
  refine ⟨File.textOf_pieces parsed, ?_⟩
  obtain ⟨after, read, ended⟩ := File.parseChars_ok_iff.mp parsed
  have alters : List.Forall₂ Grammar.Comparison.spacing.Alters (File.pieces text) pieces :=
    respaced.imp fun _ _ respaced => .inr ⟨trivial, respaced⟩
  have fresh : Grammar.Fresh [] := .inl rfl
  obtain ⟨items, items', after', rfl, repeats, same, remains⟩ := Grammar.file_altered
    (.ofSource (Piece.textOf pieces)) id fresh read ended alters (List.append_nil _).symm rfl
  have ended' : after'.rest = [] := by simpa using remains
  have accepted : File.parseChars (Piece.textOf pieces) name' = .ok _ :=
    (File.parseChars_of_repeats repeats (Grammar.entry_at_end ended')).mpr ⟨ended', rfl⟩
  simp only [File.parse, String.toList_ofList]
  refine ⟨_, accepted, ?_⟩
  rw [← File.move_nowhere, ← File.move_nowhere, Grammar.move_fileOf, Grammar.move_fileOf]
  exact congrArg₂ Grammar.fileOf same.symm rfl

def quotient : String := "function f()\x7ba/b;\x7d//end"

def commentedQuotient : List Piece :=
  [.gap [], .token "function".toList, .gap [' '], .token ['f'], .gap [], .token ['('], .gap ['\n'],
    .gap ['\t'], .token [')'], .gap [], .token ['\x7b'], .gap [], .token ['a'],
    .gap " // /*\n".toList, .token ['/'], .gap " /*/ **/".toList, .token ['b'], .gap [], .token [';'],
    .gap ['\r'], .token ['\x7d'], .gap "//end".toList]

theorem quotient_respaced : List.Forall₂ Piece.Respaced (File.pieces quotient) commentedQuotient ∧
    ∃ file, File.parse quotient none = .ok file ∧
      Piece.textOf (File.pieces quotient) = quotient.toList ∧ ∃ file',
        File.parse (String.ofList (Piece.textOf commentedQuotient)) none = .ok file' ∧
        file'.erase = file.erase := by
  have divided : File.pieces quotient =
      [.gap [], .token "function".toList, .gap [' '], .token ['f'], .gap [], .token ['('], .gap [],
        .gap [], .token [')'], .gap [], .token ['\x7b'], .gap [], .token ['a'], .gap [],
        .token ['/'], .gap [], .token ['b'], .gap [], .token [';'], .gap [], .token ['\x7d'],
        .gap "//end".toList] := by
    decide +kernel
  have blank {c : Char} (blank : Grammar.isBlank c = true) : Piece.Respaced (.gap []) (.gap [c]) :=
    .gap [] blank (.blank blank .nil)
  have newline := blank (c := '\n') rfl
  have tab := blank (c := '\t') rfl
  have home := blank (c := '\r') rfl
  have line : Piece.Respaced (.gap []) (.gap " // /*\n".toList) :=
    .gap [] rfl (.blank rfl (@Grammar.Spacing.line [' ', '/', '*'] [] (by decide) .nil))
  have block : Piece.Respaced (.gap []) (.gap " /*/ **/".toList) :=
    .gap [] rfl (.blank rfl (@Grammar.Spacing.block ['/', ' ', '*'] [] (by decide) .nil))
  have respaced : List.Forall₂ Piece.Respaced (File.pieces quotient) commentedQuotient := by
    rw [divided]
    simp only [commentedQuotient, List.forall₂_cons, List.Forall₂.nil, Piece.Respaced.same, newline,
      tab, home, line, block, and_self]
  have accepted : (File.parse quotient none).isOk := by decide +kernel
  obtain ⟨file, parsed⟩ := exists_of_isOk accepted
  exact ⟨respaced, file, parsed, File.parse_respaced parsed respaced⟩

end LeoFront

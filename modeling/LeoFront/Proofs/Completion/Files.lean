import LeoFront.Proofs.Completion.Imports
import LeoFront.Proofs.Completion.Statements
import LeoFront.Proofs.Spacing.Entries

namespace LeoFront
open Text (units16)

namespace Grammar
open LeoFront.Parser
variable {C : Comparison} {good : List Char → Prop}

instance : Nonempty Member := ⟨⟨⟨"", .none⟩, .primitive .boolean⟩⟩

instance : Nonempty Circuit := ⟨⟨⟨"", .none⟩, [], false, .none⟩⟩

instance : Nonempty Mode := ⟨.hidden⟩

instance : Nonempty Input := ⟨⟨⟨"", .none⟩, .hidden, .primitive .boolean, .none⟩⟩

instance : Nonempty FunctionDecl := ⟨⟨⟨"", .none⟩, [], none, .mk [] .none, .none⟩⟩

instance : Nonempty Import := ⟨⟨⟨⟨"", .none⟩, .star .none, .none⟩, .none⟩⟩

instance : Nonempty Item := ⟨.statement ⟨⟨⟨"", .none⟩, .star .none, .none⟩, .none⟩⟩

theorem sampled_enclosed {α β : Type} [Nonempty α] {item item' : Parser α} [Advances item']
    {closer : String} {c : Char} {sample sample' : List Char} {next next' : List α → Parser β}
    {M Q : Place} {agree : β → β → Prop} (single : closer.toList = [c])
    (visible : Place.Visible closer.toList) (mark : wordStart.contains c = false) (other : c ≠ ',')
    (items : Sampled C .token sample item item' Unasked (.loose fun _ => True))
    (begins : BeginsWithout [closer] item') (behind : M.Behind)
    (onward : ∀ values values', Sampled C M sample' (next values) (next' values') agree Q) :
    Sampled C .token (sample ++ (['\n'] ++ (closer.toList ++ sample'))) (do
      let values ← possiblyEmpty (separatedTrailing item)
      blanks
      literal closer
      next values) (do
      let values ← possiblyEmpty (separatedTrailing item')
      blanks
      literal closer
      next' values) agree Q := by
  have ends (text : List Char) (closes : Closed closer text) : text.head? ≠ some ',' := by
    obtain ⟨rest, rfl⟩ := closes
    simpa [single] using other
  have stops (text : List Char) : Closed closer text → Rejects item' text :=
    begins.rejects_closed single mark text
  have each : Sampled C .token sample item item' (fun _ _ => () = ()) (.loose fun _ => True) :=
    items.imp (fun _ _ _ => rfl) (.refl _) (.refl _)
  have list : Sampled C .token sample (separatedTrailing item) (separatedTrailing item') Unasked
      (.loose (Closed closer)) :=
    sampled_separatedTrailing each (fun _ _ => trivial) (fun _ => trivial) ends stops
  exact .closed visible behind list (fun text closes => (stops text closes).bind.bind) trivial
    fun values values' => (onward values values').imp (fun _ _ known _ => known) (.refl M) (.refl Q)

theorem sampled_typed {α : Type} {make make' : Identifier → Ty → α} : Sampled C .token
    ("a".toList ++ ("\n".toList ++ (":".toList ++ ("\n".toList ++ ("address".toList ++ []))))) (do
      let name ← identifier
      blanks
      literal ":"
      blanks
      let type ← type
      return make name type) (do
      let name ← identifier
      blanks
      literal ":"
      blanks
      let type ← type
      return make' name type) Unasked (.loose good) := by
  have visible : Place.Visible ":".toList := by decide
  exact sampled_identifier.spaced fun _ _ =>
    (sampled_fixed visible Place.behind_loose).spaced fun _ _ =>
    sampled_type.skip fun _ _ => .pure trivial (.refl _)

theorem viable_circuit : Viable C .token circuit circuit Unasked (.loose good) := by
  have words : AllVisible [("circuit", false), ("record", true)] := by decide
  have unlike : Unlike [("circuit", false), ("record", true)] := by decide
  have visible : Place.Visible "\x7b".toList ∧ Place.Visible "\x7d".toList := by decide
  have begins : BeginsWithout ["\x7d"] member := (begins_identifier (by decide)).bind
  exact .spanned_unasked (
    (sampled_oneWord (leads_all words) unlike).toViable.spaced fun _ _ =>
    sampled_identifier.spaced fun _ _ =>
    (sampled_fixed visible.1 Place.behind_loose).spaced fun _ _ =>
    sampled_enclosed rfl visible.2 rfl (by decide) sampled_typed begins Place.behind_loose
      fun _ _ => .pure trivial (.refl _))

theorem sampled_moded : Sampled C .token ("public".toList ++ ("\n".toList ++ [])) (do
    let mode ← mode
    blanks
    return mode) (do
    let mode ← mode
    blanks
    return mode) Unasked .token := by
  have visible : AllVisible [("public", Mode.shown), ("private", .hidden), ("const", .constant)] := by
    decide
  have unlike : Unlike [("public", Mode.shown), ("private", .hidden), ("const", .constant)] := by
    decide
  exact (sampled_oneWord (leads_all visible) unlike).spaced fun _ _ => .pure trivial (.refl _)

theorem begins_mode : BeginsWith ["public", "private", "const"] mode := begins_oneWord (by decide)

theorem sampled_input : Sampled C .token "public\na\n:\naddress".toList input input Unasked
    (.loose good) := by
  have name : BeginsWithout ["public", "private", "const"] identifier :=
    begins_identifier (by decide)
  exact .spanned_unasked (.option sampled_moded (fun _ _ => sampled_typed) sampled_typed.toViable
    fun _ taken _ => begins_mode.bind.told name.bind taken)

theorem begins_input : BeginsWithout [")"] input := by
  have name : BeginsWithout [")"] identifier := begins_identifier (by decide)
  exact .spanned (.optional (begins_mode.without (by decide)).bind name.bind)

theorem viable_function : Viable C .token function function Unasked (.loose good) := by
  have visible : Place.Visible "function".toList ∧ Place.Visible "(".toList ∧
      Place.Visible ")".toList := by decide
  have typed : Sampled C .token _ output output Unasked .token := sampled_marked (by decide)
  have arrow : Heads (· = '-') output := (heads_literal rfl).bind
  have outputs : BeginsWithout ["\x7b"] output := arrow.of_heads (by decide)
  have body {α : Type} {make make' : Block → α} : Sampled C .token "\x7b\n\x7d".toList (do
      let body ← block
      return make body) (do
      let body ← block
      return make' body) Unasked (.loose good) := sampled_block.map fun _ _ _ => trivial
  exact .spanned_unasked (
    (sampled_word visible.1).toViable.spaced fun _ _ =>
    sampled_identifier.spaced fun _ _ =>
    (sampled_fixed visible.2.1 Place.behind_loose).spaced fun _ _ =>
    sampled_enclosed rfl visible.2.2 rfl (by decide) sampled_input begins_input Place.behind_loose
    fun _ _ => sampled_blanks.skip fun _ _ =>
    .option typed (fun _ _ => body) body.toViable fun _ taken _ =>
      outputs.rejects (not_not_intro (begins_block.bind _ _ _ taken)) _)

theorem viable_item : Viable C .token item item Unasked (.loose good) := by
  have imports : BeginsWith ["import"] importStatement := (begins_word (by decide)).bind.spanned
  have circuits : BeginsWith ["circuit", "record"] circuit :=
    (begins_oneWord (by decide)).bind.spanned
  have functions : BeginsWith ["function"] function := (begins_word (by decide)).bind.spanned
  have none : Later C .token (["function"] ++ (["circuit", "record"] ++ (["import"] ++ [])))
      (fail : Parser Item) fail (.loose good) := ⟨.fail, .fail⟩
  have all : Later C .token [] item item (.loose good) :=
    .or (viable_importStatement.skip fun _ _ => .pure trivial (.refl _)) imports.bind (by decide)
    (.or (viable_circuit.skip fun _ _ => .pure trivial (.refl _)) circuits.bind (by decide)
    (.or (viable_function.skip fun _ _ => .pure trivial (.refl _)) functions.bind (by decide) none))
  exact all.viable

theorem sampled_file :
    Sampled C (.loose fun _ => True) "\n".toList file file Unasked (.solid (· = [])) := by
  have entries : Viable C .token entry entry (fun _ _ => () = ()) .token :=
    viable_item.spaced fun _ _ => .pure rfl (.refl _)
  have all : Sampled C .token [] (many entry) (many entry) _ (.solid (· = [])) :=
    .many consumes_entry entries Place.within_token fun position rest allows =>
      entry_at_end allows.2
  exact .spanned_unasked (sampled_blanks.skip fun _ _ => all.skip fun _ _ =>
    .pure trivial (.refl _))

theorem file_completed {text : List Char} {offset : Nat}
    (noted : Noted (file (.ofSource text)).furthest offset) : ∃ read unread more parsed,
      text = read ++ unread ∧ units16 read = offset ∧
        Takes file .start (read ++ more) parsed [] := by
  rcases (sampled_file (C := .itself)).completes .start trivial noted rfl with ⟨bare, -⟩ |
    ⟨read, unread, more, whole, units, goesOn⟩
  · cases bare
  · obtain ⟨-, parsed, taken⟩ := goesOn [] ⟨rfl, rfl⟩
    exact ⟨read, unread, more, parsed, whole, (units.trans (Nat.zero_add _)).symm, taken⟩

end Grammar

namespace File
open Grammar

/-- An error is reported where the grammar failed furthest, also where the source goes on behind the last
item. -/
theorem noted_of_rejected {source : List Char} {name : Option String} {error : SyntaxError}
    (rejected : parseChars source name = .error error) :
    error.offset = 0 ∨ Noted (file (.ofSource source)).furthest error.offset := by
  have whole := (sampled_file (C := .itself)).toViable
  have honest := whole.honest (.ofSource source)
  unfold parseChars Parser.run at rejected
  dsimp only at rejected
  split at rejected
  · cases rejected
  · rename_i parsed stopped _ read
    cases rejected
    refine (honest.merge (honest_one _ _)).noted.imp id fun noted => ?_
    rcases noted.of_merge with noted | ⟨noted, le⟩
    · exact noted
    obtain ⟨rest, position⟩ := stopped
    obtain ⟨text, written, moved⟩ := whole.advances read
    dsimp only [Cursor.ofSource] at written moved
    subst written moved
    -- before the text that is no item, the grammar had failed to go on
    rcases (whole.ends trivial read).2 rfl with ⟨-, bare⟩ | ⟨something, reached⟩
    · cases bare
    · exact ⟨something, Nat.le_antisymm le (Nat.le_trans (Nat.le_of_eq noted.2.symm) reached)⟩
  · cases rejected
    exact honest.noted

theorem parseChars_completed {source : List Char} {name : Option String} {error : SyntaxError}
    (rejected : parseChars source name = .error error) : ∃ read unread more parsed,
      source = read ++ unread ∧ units16 read = error.offset ∧
        parseChars (read ++ more) name = .ok parsed := by
  have accepted {text : List Char} {parsed : File} (taken : Takes file .start text parsed []) :
      parseChars text name = .ok parsed := by
    rw [parseChars_ok_iff]
    rw [Takes, List.append_nil] at taken
    exact ⟨_, taken, rfl⟩
  rcases noted_of_rejected rejected with start | noted
  · obtain ⟨-, reads⟩ := (sampled_file (C := .itself)).samples [] ⟨rfl, rfl⟩
    obtain ⟨parsed, taken⟩ := reads .start
    exact ⟨[], source, _, parsed, rfl, start.symm, accepted taken⟩
  · obtain ⟨read, unread, more, parsed, written, units, taken⟩ := file_completed noted
    exact ⟨read, unread, more, parsed, written, units, accepted taken⟩

/-- The text before a reported error begins a source that is accepted. -/
theorem parse_completed {source : String} {sourceName : Option String} {error : SyntaxError}
    (rejected : parse source sourceName = .error error) :
    ∃ read unread more file, source = read ++ unread ∧ units16 read.toList = error.offset ∧
      parse (read ++ more) sourceName = .ok file := by
  obtain ⟨read, unread, more, parsed, written, units, accepted⟩ := parseChars_completed rejected
  refine ⟨.ofList read, .ofList unread, .ofList more, parsed, ?_, ?_, ?_⟩
  · rw [← String.ofList_append, ← written, String.ofList_toList]
  · rw [String.toList_ofList, units]
  · rw [parse, ← String.ofList_append, String.toList_ofList, accepted]

def unfinishedSum : String := "function main() { return a + ; }"

theorem unfinishedSum_completed : ∃ error, parse unfinishedSum none = .error error ∧
    error.offset = 29 ∧ ∃ read unread more file, unfinishedSum = read ++ unread ∧
      units16 read.toList = error.offset ∧ parse (read ++ more) none = .ok file := by
  have reported : (match parse unfinishedSum none with
      | .error error => error.offset
      | .ok _ => 0) = 29 := by decide +kernel
  rcases rejected : parse unfinishedSum none with error | file
  · rw [rejected] at reported
    exact ⟨error, rfl, reported, parse_completed rejected⟩
  · rw [rejected] at reported
    cases reported

end File

end LeoFront

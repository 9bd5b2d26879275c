import LeoFront.Command.Config

namespace LeoFront.Command
variable {workspace : Workspace} {argument : String}

def Plain (argument : String) : Prop :=
  argument ≠ "" ∧ ∀ flag ∈ Flag.all,
    argument ≠ flag.text ∧ ¬ (flag.text ++ "=").toList <+: argument.toList

instance (argument : String) : Decidable (Plain argument) :=
  inferInstanceAs (Decidable (_ ∧ _))

inductive Setting where
  | format (chosen : OutputFormat)
  | root (directory : String)

namespace Setting

def flag : Setting → Flag
  | .format _ => .format
  | .root _ => .root

def value : Setting → String
  | .format chosen => chosen.name
  | .root directory => directory

def format? : Setting → Option OutputFormat
  | .format chosen => some chosen
  | .root _ => none

def root? : Setting → Option String
  | .format _ => none
  | .root directory => some directory

end Setting

inductive Form where
  | joined | apart

inductive Phrase where
  | positional (argument : String) (plain : Plain argument)
  | empty
  | flag (setting : Setting) (form : Form)

namespace Phrase

def written : Phrase → List String
  | positional argument _ => [argument]
  | empty => [""]
  | flag setting .joined => [setting.flag.text ++ "=" ++ setting.value]
  | flag setting .apart => [setting.flag.text, setting.value]

def positional? : Phrase → Option String
  | positional argument _ => some argument
  | empty | flag .. => none

def setting? : Phrase → Option Setting
  | positional .. | empty => none
  | flag setting _ => some setting

def arguments (phrases : List Phrase) : List String := phrases.flatMap written

def positionals (phrases : List Phrase) : List String := phrases.filterMap positional?

def settings (phrases : List Phrase) : List Setting := phrases.filterMap setting?

def formats (phrases : List Phrase) : List OutputFormat :=
  (settings phrases).filterMap Setting.format?

def roots (phrases : List Phrase) : List String := (settings phrases).filterMap Setting.root?

end Phrase

namespace Flags
open Phrase

theorem bare?_text (flag : Flag) : bare? flag.text = some flag := by
  cases flag <;> decide

theorem bare?_plain (plain : Plain argument) : bare? argument = none := by
  rw [bare?, List.find?_eq_none]
  intro flag known same
  exact (plain.2 flag known).1 (of_decide_eq_true same).symm

theorem bare?_joined (flag : Flag) (value : String) :
    bare? (flag.text ++ "=" ++ value) = none := by
  rw [bare?, List.find?_eq_none]
  intro other _ same
  have characters := congrArg String.toList (of_decide_eq_true same)
  cases flag <;> cases other <;> simp [Flag.text] at characters

theorem withValue?_text (flag : Flag) : withValue? flag.text = none := by
  cases flag <;> decide

theorem withValue?_plain (plain : Plain argument) : withValue? argument = none := by
  rw [withValue?, List.findSome?_eq_none_iff]
  intro flag known
  have other := (plain.2 flag known).2
  rw [String.toList_append] at other
  have unlike : ¬ (flag.text.toList ++ ['=']).isPrefixOf argument.toList = true :=
    fun starts => other (List.isPrefixOf_iff_prefix.mp starts)
  exact if_neg unlike

theorem withValue?_joined (flag : Flag) (value : String) :
    withValue? (flag.text ++ "=" ++ value) = some (flag, value) := by
  cases flag <;> simp [withValue?, Flag.all, Flag.text]

theorem takeAlone_plain (flags : Flags) (plain : Plain argument) :
    flags.takeAlone workspace argument =
      .ok { flags with positional := flags.positional ++ [argument] } := by
  rw [takeAlone, if_neg plain.1, withValue?_plain plain]

theorem takeAlone_text (flags : Flags) (flag : Flag) :
    flags.takeAlone workspace flag.text =
      .ok { flags with positional := flags.positional ++ [flag.text] } := by
  have nonempty : flag.text ≠ "" := by cases flag <;> decide
  rw [takeAlone, if_neg nonempty, withValue?_text]

theorem takeAlone_joined (flags : Flags) (flag : Flag) (value : String) :
    flags.takeAlone workspace (flag.text ++ "=" ++ value) = flags.set workspace value flag := by
  have nonempty : flag.text ++ "=" ++ value ≠ "" := by simp
  rw [takeAlone, if_neg nonempty, withValue?_joined]

def take (workspace : Workspace) (flags : Flags) : Phrase → Except FlagError Flags
  | .positional argument _ => .ok { flags with positional := flags.positional ++ [argument] }
  | .empty => .ok flags
  | .flag setting _ => flags.set workspace setting.value setting.flag

theorem collect_cons (flags : Flags) (alone : bare? argument = none) (rest : List String) :
    flags.collect workspace (argument :: rest) =
      flags.takeAlone workspace argument >>= (collect workspace · rest) := by
  cases rest with
  | nil =>
    rw [collect]
    cases flags.takeAlone workspace argument <;> rfl
  | cons next rest => rw [collect, alone]

theorem collect_phrase (flags : Flags) (phrase : Phrase) (rest : List String) :
    flags.collect workspace (phrase.written ++ rest) =
      flags.take workspace phrase >>= (collect workspace · rest) := by
  cases phrase with
  | positional argument plain =>
    rw [take, ← takeAlone_plain flags plain]
    exact collect_cons flags (bare?_plain plain) rest
  | empty => exact collect_cons flags (by decide) rest
  | flag setting form =>
    cases form with
    | joined =>
      rw [take, ← takeAlone_joined]
      exact collect_cons flags (bare?_joined _ _) rest
    | apart =>
      rw [written, List.cons_append, List.cons_append, collect, bare?_text]
      rfl

theorem collect_arguments (flags : Flags) (phrases : List Phrase) (rest : List String) :
    flags.collect workspace (arguments phrases ++ rest) =
      phrases.foldlM (take workspace) flags >>= (collect workspace · rest) := by
  induction phrases generalizing flags with
  | nil => rfl
  | cons phrase phrases ih =>
    rw [arguments, List.flatMap_cons, List.append_assoc, collect_phrase, List.foldlM_cons,
      bind_assoc]
    simp only [← ih, arguments]

def after (flags : Flags) (phrases : List Phrase) (directories : List String) : Flags :=
  ⟨flags.positional ++ positionals phrases, (formats phrases).getLast?.or flags.format,
    directories.getLast?.or flags.packageRoot⟩

theorem after_nil (flags : Flags) : flags.after [] [] = flags := by
  simp [after, positionals, formats, settings]

theorem after_empty (phrases : List Phrase) (directories : List String) :
    empty.after phrases directories =
      ⟨positionals phrases, (formats phrases).getLast?, directories.getLast?⟩ := by
  simp [after, empty]

theorem getLast?_cons_or {α : Type} (first : α) (rest : List α) (before : Option α) :
    (first :: rest).getLast?.or before = rest.getLast?.or (some first) := by
  rw [List.getLast?_cons]
  cases rest.getLast? <;> rfl

section
variable (flags : Flags) (phrases : List Phrase) (directories : List String)

theorem after_positional (plain : Plain argument) :
    flags.after (.positional argument plain :: phrases) directories =
      after { flags with positional := flags.positional ++ [argument] } phrases directories := by
  rw [after, after, List.append_assoc]
  rfl

theorem after_format (chosen : OutputFormat) (form : Form) :
    flags.after (.flag (.format chosen) form :: phrases) directories =
      after { flags with format := some chosen } phrases directories := by
  rw [after, after, ← getLast?_cons_or chosen _ flags.format]
  rfl

theorem after_root (directory path : String) (form : Form) :
    flags.after (.flag (.root directory) form :: phrases) (path :: directories) =
      after { flags with packageRoot := some path } phrases directories := by
  rw [after, after, ← getLast?_cons_or path _ flags.packageRoot]
  rfl

theorem set_format (chosen : OutputFormat) :
    flags.set workspace chosen.name .format = .ok { flags with format := some chosen } := by
  cases chosen <;> rfl

theorem foldlM_take : phrases.foldlM (take workspace) flags =
    (((roots phrases).mapM workspace.resolve).map (flags.after phrases)).mapError .system := by
  induction phrases generalizing flags with
  | nil => exact congrArg Except.ok flags.after_nil.symm
  | cons phrase phrases ih =>
    rw [List.foldlM_cons]
    cases phrase with
    | positional argument plain =>
      simp only [funext (after_positional flags phrases · plain)]
      exact ih _
    | empty => exact ih flags
    | flag setting form =>
      cases setting with
      | format chosen =>
        rw [take, Setting.value, Setting.flag, set_format]
        simp only [funext (after_format flags phrases · chosen form)]
        exact ih _
      | root directory =>
        have here : roots (.flag (.root directory) form :: phrases) = directory :: roots phrases :=
          rfl
        rw [take, Setting.value, Setting.flag, set, here, List.mapM_cons]
        cases workspace.resolve directory with
        | error error => rfl
        | ok path =>
          refine (ih _).trans ?_
          cases (roots phrases).mapM workspace.resolve with
          | error error => rfl
          | ok directories =>
            exact congrArg Except.ok (after_root flags phrases directories directory path form).symm

end

/-- Behind the phrases of a command line a flag may be left without a value; it is an argument like any
other. -/
def trailing (last : Option Flag) : List String := (last.map Flag.text).toList

theorem trailing_none : trailing none = [] := rfl

theorem collect_trailing (flags : Flags) (last : Option Flag) :
    flags.collect workspace (trailing last) =
      .ok { flags with positional := flags.positional ++ trailing last } := by
  cases last with
  | none =>
    rw [trailing_none, List.append_nil]
    rfl
  | some flag => exact takeAlone_text flags flag

theorem parse_trailing (workspace : Workspace) (phrases : List Phrase) (last : Option Flag) :
    parse workspace (arguments phrases ++ trailing last) =
      (((roots phrases).mapM workspace.resolve).map fun directories =>
        ⟨positionals phrases ++ trailing last, (formats phrases).getLast?,
          directories.getLast?⟩).mapError .system := by
  rw [parse, collect_arguments, foldlM_take]
  simp only [collect_trailing, funext (after_empty phrases)]
  cases (roots phrases).mapM workspace.resolve <;> rfl

theorem mapM_resolve (there : workspace.cwdRemoved = false) (directories : List String) :
    ∃ paths, directories.mapM workspace.resolve = .ok paths ∧
      paths.map .ok = directories.map workspace.resolve := by
  induction directories with
  | nil => exact ⟨[], rfl, rfl⟩
  | cons first rest ih =>
    obtain ⟨paths, found, same⟩ := ih
    have resolved : ∃ path, workspace.resolve first = .ok path := by
      simp only [Workspace.resolve, Workspace.cwdText, there]
      split <;> exact ⟨_, rfl⟩
    obtain ⟨path, resolved⟩ := resolved
    refine ⟨path :: paths, ?_, ?_⟩
    · rw [List.mapM_cons, resolved, found]
      rfl
    · rw [List.map_cons, List.map_cons, same, resolved]

/-- Flags may stand anywhere among the arguments, each with its value, whatever the value of a root
looks like. They leave the arguments that are no flags in their order, and set the last format and the
directory that the last root leads to. A root is refused only if it is relative and the working
directory is gone, and then the first such root is. -/
theorem parse_arguments (workspace : Workspace) (phrases : List Phrase) :
    (parse workspace (arguments phrases) =
      match (roots phrases).mapM workspace.resolve with
      | .ok directories =>
        .ok ⟨positionals phrases, (formats phrases).getLast?, directories.getLast?⟩
      | .error error => .error (.system error)) ∧
    (workspace.cwdRemoved = false → ∃ root,
      parse workspace (arguments phrases) =
        .ok ⟨positionals phrases, (formats phrases).getLast?, root⟩ ∧
        root.map .ok = (roots phrases).getLast?.map workspace.resolve) := by
  have whole := parse_trailing workspace phrases none
  rw [trailing_none, List.append_nil, List.append_nil] at whole
  refine ⟨?_, fun there => ?_⟩
  · rw [whole]
    cases (roots phrases).mapM workspace.resolve <;> rfl
  · obtain ⟨paths, found, same⟩ := mapM_resolve there (roots phrases)
    refine ⟨paths.getLast?, ?_, ?_⟩
    · rw [whole, found]
      rfl
    · rw [← List.getLast?_map, same, List.getLast?_map]

def emptyPackage : Workspace := ⟨.empty, [Text.Utf8.encode "pkg"], false⟩

theorem flagLikeRoot_parse : emptyPackage.cwdRemoved = false ∧
    parse emptyPackage ["a", "--root", "--format=text", "--format=json", "", "--b", "--root="] =
      .ok ⟨["a", "--b"], some .json, some "/pkg"⟩ := by
  let phrases : List Phrase := [.positional "a" (by decide), .flag (.root "--format=text") .apart,
    .flag (.format .json) .joined, .empty, .positional "--b" (by decide), .flag (.root "") .joined]
  obtain ⟨root, parsed, same⟩ := (parse_arguments emptyPackage phrases).2 rfl
  have place : emptyPackage.resolve "" = .ok "/pkg" := by rfl
  have last : root.map .ok = some (emptyPackage.resolve "") := same
  rw [place] at last
  obtain ⟨path, rfl, same⟩ := Option.map_eq_some_iff.mp last
  cases same
  exact ⟨rfl, parsed⟩

end Flags

end LeoFront.Command

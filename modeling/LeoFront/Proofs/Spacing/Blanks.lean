import LeoFront.Proofs.Grammar.Advance
import Mathlib.Data.List.Infix

namespace LeoFront.Grammar

/-- A run of blanks and comments, each of which ends in it. -/
inductive Spacing : List Char → Prop
  | nil : Spacing []
  | blank {c : Char} {rest : List Char} (blank : isBlank c = true) (behind : Spacing rest) :
      Spacing (c :: rest)
  | line {text rest : List Char} (inLine : '\n' ∉ text) (behind : Spacing rest) :
      Spacing ('/' :: '/' :: (text ++ '\n' :: rest))
  | block {text rest : List Char} (inside : ¬ ['*', '/'] <:+: text) (behind : Spacing rest) :
      Spacing ('/' :: '*' :: (text ++ '*' :: '/' :: rest))

variable {text gap rest : List Char} {c : Char}

theorem isBlank_ne_slash (blank : isBlank c = true) : c ≠ '/' := by
  rintro rfl
  revert blank
  decide

theorem blankRun_blank (blank : isBlank c = true) (rest : List Char) :
    blankRun (c :: rest) = 1 + blankRun rest := by
  have visible := isBlank_ne_slash blank
  rw [blankRun, if_pos blank]
  · exact fun _ slash => absurd slash visible
  · exact fun _ slash => absurd slash visible

theorem blankRun_visible (visible : isBlank c = false) (slash : c ≠ '/') :
    blankRun (c :: rest) = 0 := by
  rw [blankRun, if_neg (by simp [visible])]
  · exact fun _ same => absurd same slash
  · exact fun _ same => absurd same slash

theorem head_of_blankRun (skips : blankRun text ≠ 0) :
    ∀ c ∈ text.head?, isBlank c = true ∨ c = '/' := by
  intro c head
  obtain ⟨rest, rfl⟩ := List.head?_eq_some_iff.mp head
  by_contra! visible
  exact skips (blankRun_visible (by simpa using visible.1) visible.2)

theorem lineCommentRun_append (inLine : '\n' ∉ text) (rest : List Char) :
    lineCommentRun (text ++ '\n' :: rest) = text.length + (1 + blankRun rest) := by
  induction text with
  | nil => simp [lineCommentRun]
  | cons c text ih =>
    rw [List.mem_cons, not_or] at inLine
    rw [List.cons_append, lineCommentRun, if_neg (Ne.symm inLine.1), ih inLine.2, List.length_cons]
    omega

theorem blockCommentRun_append (inside : ¬ ['*', '/'] <:+: text) (rest : List Char) :
    blockCommentRun (text ++ '*' :: '/' :: rest) = some (text.length + (2 + blankRun rest)) := by
  induction text with
  | nil => simp [blockCommentRun]
  | cons c text ih =>
    have within : ¬ ['*', '/'] <:+: text :=
      fun infixed => inside (infixed.trans (List.suffix_cons c text).isInfix)
    rw [List.cons_append, blockCommentRun, ih within, Option.map_some, List.length_cons]
    · rw [Nat.add_right_comm, Nat.add_comm 1]
    · rintro more rfl same
      -- the end cannot begin inside the text, nor at its last character
      cases text with
      | nil => cases same
      | cons d text =>
        cases same
        exact inside ⟨[], text, rfl⟩

theorem Spacing.blankRun_append (spacing : Spacing gap) (rest : List Char) :
    blankRun (gap ++ rest) = gap.length + blankRun rest := by
  induction spacing with
  | nil => simp
  | blank blank _ ih =>
    rw [List.cons_append, blankRun_blank blank, ih, List.length_cons]
    omega
  | line inLine _ ih =>
    simp only [List.cons_append, List.append_assoc]
    rw [blankRun, lineCommentRun_append inLine, ih]
    simp only [List.length_cons, List.length_append]
    omega
  | block inside _ ih =>
    simp only [List.cons_append, List.append_assoc]
    rw [blankRun, blockCommentRun_append inside, ih]
    simp only [List.length_cons, List.length_append]
    omega

theorem Spacing.append {other : List Char} (spacing : Spacing gap) (more : Spacing other) :
    Spacing (gap ++ other) := by
  induction spacing with
  | nil => exact more
  | blank blank _ ih => exact .blank blank ih
  | line inLine _ ih =>
    simp only [List.cons_append, List.append_assoc]
    exact .line inLine ih
  | block inside _ ih =>
    simp only [List.cons_append, List.append_assoc]
    exact .block inside ih

structure Skipped (gap rest : List Char) : Prop where
  bare : blankRun rest = 0
  spacing : rest ≠ [] → Spacing gap
  /-- A comment at the end of a text ends with its line. -/
  ended : Spacing (gap ++ ['\n'])

theorem Skipped.cons_blank (skipped : Skipped gap rest) (blank : isBlank c = true) :
    Skipped (c :: gap) rest :=
  ⟨skipped.bare, fun more => .blank blank (skipped.spacing more), .blank blank skipped.ended⟩

theorem spacing_newline : Spacing ['\n'] := .blank rfl .nil

def SkipsRun (text : List Char) : Prop :=
  ∃ gap rest, text = gap ++ rest ∧ blankRun text = gap.length ∧ Skipped gap rest

def SkipsLine (text : List Char) : Prop :=
  (∃ inner gap rest, text = inner ++ '\n' :: (gap ++ rest) ∧
    lineCommentRun text = inner.length + (1 + gap.length) ∧ '\n' ∉ inner ∧ Skipped gap rest) ∨
  lineCommentRun text = text.length ∧ '\n' ∉ text

def SkipsBlock (text : List Char) : Prop :=
  ∀ length, blockCommentRun text = some length →
    ∃ inner gap rest, text = inner ++ '*' :: '/' :: (gap ++ rest) ∧
      length = inner.length + (2 + gap.length) ∧ ¬ ['*', '/'] <:+: inner ∧ Skipped gap rest

theorem skipsRun_line (skips : SkipsLine text) : SkipsRun ('/' :: '/' :: text) := by
  rcases skips with ⟨inner, gap, rest, rfl, run, inLine, skipped⟩ | ⟨run, inLine⟩
  · refine ⟨'/' :: '/' :: (inner ++ '\n' :: gap), rest, by simp, ?_, skipped.bare, ?_, ?_⟩
    · rw [blankRun, run]
      simp only [List.length_cons, List.length_append]
      omega
    · exact fun more => .line inLine (skipped.spacing more)
    · simpa using Spacing.line inLine skipped.ended
  · refine ⟨'/' :: '/' :: text, [], by simp, ?_, rfl, fun more => absurd rfl more, ?_⟩
    · rw [blankRun, run, List.length_cons, List.length_cons]
      omega
    · exact .line inLine .nil

theorem skipsRun_block {length : Nat} (run : blockCommentRun text = some length)
    (skips : SkipsBlock text) : SkipsRun ('/' :: '*' :: text) := by
  obtain ⟨inner, gap, rest, rfl, rfl, inside, skipped⟩ := skips length run
  refine ⟨'/' :: '*' :: (inner ++ '*' :: '/' :: gap), rest, by simp, ?_, skipped.bare, ?_, ?_⟩
  · rw [blankRun, run]
    simp only [List.length_cons, List.length_append]
    omega
  · exact fun more => .block inside (skipped.spacing more)
  · simpa using Spacing.block inside skipped.ended

theorem skipsRun_nothing (bare : blankRun text = 0) : SkipsRun text :=
  ⟨[], text, rfl, bare, bare, fun _ => .nil, spacing_newline⟩

theorem skipsBlock_end (skips : SkipsRun text) : SkipsBlock ('*' :: '/' :: text) := by
  obtain ⟨gap, rest, rfl, run, skipped⟩ := skips
  intro length same
  rw [blockCommentRun, run] at same
  cases same
  exact ⟨[], gap, rest, rfl, by simp, by simp, skipped⟩

theorem skipsBlock_cons (inside : ∀ rest, c = '*' → text = '/' :: rest → False)
    (skips : SkipsBlock text) : SkipsBlock (c :: text) := by
  intro length same
  rw [blockCommentRun.eq_2 _ _ inside, Option.map_eq_some_iff] at same
  obtain ⟨length, run, rfl⟩ := same
  obtain ⟨inner, gap, rest, rfl, rfl, within, skipped⟩ := skips length run
  refine ⟨c :: inner, gap, rest, rfl, by rw [List.length_cons]; omega, ?_, skipped⟩
  intro infixed
  rcases List.infix_cons_iff.mp infixed with first | later
  · obtain ⟨rfl, second⟩ := List.cons_prefix_cons.mp first
    obtain ⟨more, rfl⟩ := second
    exact inside _ rfl rfl
  · exact within later

theorem skipsLine_cons (inLine : c ≠ '\n') (skips : SkipsLine text) : SkipsLine (c :: text) := by
  have run : lineCommentRun (c :: text) = 1 + lineCommentRun text := by
    rw [lineCommentRun, if_neg inLine]
  rcases skips with ⟨inner, gap, rest, rfl, same, within, skipped⟩ | ⟨same, within⟩
  · refine .inl ⟨c :: inner, gap, rest, rfl, ?_, ?_, skipped⟩
    · rw [run, same, List.length_cons]
      omega
    · simpa [inLine.symm] using within
  · refine .inr ⟨?_, ?_⟩
    · rw [run, same, List.length_cons, Nat.add_comm]
    · simpa [inLine.symm] using within

theorem exists_skipped (text : List Char) : SkipsRun text := by
  refine blankRun.induct SkipsRun SkipsBlock SkipsLine ?_ ?_ ?_ ?_ ?_ ?_ ?_ ?_ ?_ ?_ ?_ ?_ text
  -- a line comment, a block comment that ends, and one that does not
  · exact fun _ => skipsRun_line
  · exact fun _ _ => skipsRun_block
  · exact fun _ unended _ => skipsRun_nothing (by rw [blankRun, unended])
  -- a blank, another character, the end of the text
  · rintro c text - - blank ⟨gap, rest, rfl, run, skipped⟩
    refine ⟨c :: gap, rest, rfl, ?_, skipped.cons_blank blank⟩
    rw [blankRun_blank blank, run, List.length_cons, Nat.add_comm]
  · exact fun c text line block visible =>
      skipsRun_nothing (by rw [blankRun.eq_3 _ _ line block, if_neg visible])
  · exact skipsRun_nothing rfl
  -- inside a block comment
  · exact fun _ => skipsBlock_end
  · exact fun _ _ inside => skipsBlock_cons inside
  · exact fun _ same => nomatch same
  -- inside a line comment
  · rintro text ⟨gap, rest, rfl, run, skipped⟩
    exact .inl ⟨[], gap, rest, rfl, by simp [lineCommentRun, run], by simp, skipped⟩
  · exact fun _ _ => skipsLine_cons
  · exact .inr ⟨rfl, by simp⟩

end LeoFront.Grammar

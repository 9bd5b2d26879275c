import LeoFront.Proofs.Spacing.Blanks

/-!
# Two texts with the same tokens

Two texts are compared from the beginning of an item to its end. They have the same tokens; between
two of them there may be different gaps, but where one text has none, the tokens must not run together
in the other (`clash`).

* `Comparison.Solid` compares texts that begin with a token, `Comparison.Near` texts behind a
  character of a token.
* A depth counts the braces that are open. The item ends at depth 0 with a semicolon, or with the brace
  that leads back to depth 0 (`level`); what comes behind is not compared.
-/

namespace LeoFront.Grammar

-- to decide something about the members of a text is to look at them, not at all characters there are

section
variable {p : Char → Prop} [DecidablePred p]

instance (priority := high) decidable_forall_list (text : List Char) :
    Decidable (∀ c ∈ text, p c) := List.decidableBAll p text

instance (priority := high) decidable_forall_option (some : Option Char) :
    Decidable (∀ c ∈ some, p c) := Option.decidableForallMem some

instance (priority := high) decidable_exists_option (some : Option Char) :
    Decidable (∃ c ∈ some, p c) := Option.decidableExistsMem some

end

/-- Characters, not of words, that are one token or begin a comment. -/
def symbolPairs : List (Char × Char) :=
  [('|', '|'), ('&', '&'), ('=', '='), ('!', '='), ('<', '='), ('>', '='), ('+', '='), ('-', '='),
    ('*', '='), ('/', '='), ('-', '>'), ('.', '.'), ('/', '/'), ('/', '*')]

def clash (x y : Char) : Bool :=
  wordPart.contains x && wordPart.contains y || symbolPairs.contains (x, y)

def level (depth : Nat) (c : Char) : Option Nat :=
  if c = '\x7b' then some (depth + 1)
  else if c = '\x7d' then if depth ≤ 1 then none else some (depth - 1)
  else if c = ';' ∧ depth = 0 then none
  else some depth

structure Plain (c : Char) : Prop where
  opening : c ≠ '\x7b'
  closing : c ≠ '\x7d'
  semicolon : c ≠ ';'
  unquoted : c ≠ '"'
  visible : isBlank c = false

instance (c : Char) : Decidable (Plain c) :=
  decidable_of_iff (c ≠ '\x7b' ∧ c ≠ '\x7d' ∧ c ≠ ';' ∧ c ≠ '"' ∧ isBlank c = false)
    ⟨fun ⟨opening, closing, semicolon, unquoted, visible⟩ =>
      ⟨opening, closing, semicolon, unquoted, visible⟩,
    fun plain => ⟨plain.opening, plain.closing, plain.semicolon, plain.unquoted, plain.visible⟩⟩

def Apart (x : Char) (text : List Char) : Prop := ∀ y ∈ text.head?, clash x y = false

variable {depth : Nat} {x y c : Char} {s : List Char}

theorem level_plain (plain : Plain c) (depth : Nat) : level depth c = some depth := by
  simp [level, plain.opening, plain.closing, plain.semicolon]

theorem level_none (ends : level depth c = none) : isBlank c = false ∧ c ≠ '/' ∧ c ≠ '"' := by
  unfold level at ends
  split at ends
  · cases ends
  split at ends
  · subst c
    decide
  split at ends
  · rename_i closes
    rw [closes.1]
    decide
  · cases ends

theorem blankRun_bare (visible : isBlank c = false)
    (bare : c = '/' → s.head? ≠ some '/' ∧ s.head? ≠ some '*') : blankRun (c :: s) = 0 := by
  by_cases slash : c = '/'
  · subst slash
    obtain ⟨line, block⟩ := bare rfl
    rw [blankRun.eq_3, if_neg (by decide)]
    · rintro rest - rfl
      exact line rfl
    · rintro rest - rfl
      exact block rfl
  · exact blankRun_visible visible slash

theorem plain_of_wordPart (part : wordPart.contains c = true) : Plain c := by
  have visible : isBlank c = false := by
    by_contra blank
    simp only [isBlank, Bool.not_eq_false, Bool.or_eq_true, decide_eq_true_eq] at blank
    rcases blank with ((rfl | rfl) | rfl) | rfl <;> revert part <;> decide
  refine ⟨?_, ?_, ?_, ?_, visible⟩ <;>
    · rintro rfl
      revert part
      decide

theorem clash_of_wordPart (part : wordPart.contains x = true)
    (part' : wordPart.contains y = true) : clash x y = true := by
  rw [clash, part, part']
  rfl

theorem clash_outside (other : (x, y) ∉ symbolPairs)
    (outside : wordPart.contains x = false ∨ wordPart.contains y = false) : clash x y = false := by
  rcases outside with outside | outside <;> simp [clash, outside, other]

theorem clash_of_first (alone : ∀ pair ∈ symbolPairs, pair.1 ≠ x)
    (outside : wordPart.contains x = false ∨ wordPart.contains y = false) : clash x y = false :=
  clash_outside (fun member => alone _ member rfl) outside

theorem clash_of_second (alone : ∀ pair ∈ symbolPairs, pair.2 ≠ y)
    (outside : wordPart.contains x = false ∨ wordPart.contains y = false) : clash x y = false :=
  clash_outside (fun member => alone _ member rfl) outside

theorem clash_slash (other : x ≠ '/') : clash x '/' = false := by
  have alone : ∀ pair ∈ symbolPairs, pair.2 = '/' → pair.1 = '/' := by decide
  exact clash_outside (fun member => other (alone _ member rfl)) (.inr (by decide))

theorem clash_blank (blank : isBlank y = true) : clash x y = false := by
  have outside : wordPart.contains y = false := by
    by_contra part
    have visible := (plain_of_wordPart (by simpa using part)).visible
    rw [blank] at visible
    cases visible
  refine clash_of_second (fun pair member same => ?_) (.inr outside)
  have visible : ∀ pair ∈ symbolPairs, isBlank pair.2 = false := by decide
  rw [← same, visible pair member] at blank
  cases blank

theorem clash_word (part : wordPart.contains x = true) (outside : wordPart.contains y = false) :
    clash x y = false := by
  refine clash_of_first (fun pair member same => ?_) (.inr outside)
  have others : ∀ pair ∈ symbolPairs, wordPart.contains pair.1 = false := by decide
  rw [← same, others pair member] at part
  cases part

theorem head_of_apart {text : List Char} (apart : Apart x text) (part : wordPart.contains x = true) :
    ∀ y ∈ text.head?, wordPart.contains y = false := by
  intro y head
  by_contra part'
  have joins := clash_of_wordPart part (by simpa using part')
  rw [apart y head] at joins
  cases joins

/-- How two texts are compared, and the places in them. -/
structure Comparison where
  /-- Where a place of the first text is compared. -/
  left : Position → Position
  /-- Where a place of the second text is compared. -/
  right : Position → Position
  /-- Whether gaps may differ. -/
  free : Prop
  /-- Whether equal texts are compared whatever they are. -/
  same : Prop
  /-- What may stand behind an item. -/
  after : List Char → List Char → Prop
  next : ∀ p q c, left p = right q → left (p.next c) = right (q.next c)
  nowhere : free → ∀ p q, left p = right q
  after_same : same → ∀ text, after text text

namespace Comparison

mutual

inductive Solid (C : Comparison) : Nat → List Char → List Char → Prop
  | mark {depth deeper : Nat} {c : Char} {s t : List Char} (goesOn : level depth c = some deeper)
      (visible : isBlank c = false) (unquoted : c ≠ '"')
      (bare : c = '/' → s.head? ≠ some '/' ∧ s.head? ≠ some '*')
      (bare' : c = '/' → t.head? ≠ some '/' ∧ t.head? ≠ some '*')
      (behind : Near C deeper c s t) : Solid C depth (c :: s) (c :: t)
  | last {depth : Nat} {c : Char} {s t : List Char} (ends : level depth c = none)
      (behind : C.after s t) : Solid C depth (c :: s) (c :: t)
  | string {depth : Nat} {text s t : List Char} (inside : '"' ∉ text)
      (behind : Near C depth '"' s t) :
      Solid C depth ('"' :: (text ++ '"' :: s)) ('"' :: (text ++ '"' :: t))
  | same {depth : Nat} {s : List Char} (same : C.same) : Solid C depth s s

/-- Two texts behind a character of a token: the token goes on, or there is a gap in both that the
token does not go on into. -/
inductive Near (C : Comparison) : Nat → Char → List Char → List Char → Prop
  | close {depth : Nat} {x : Char} {s t : List Char} (solid : Solid C depth s t) :
      Near C depth x s t
  | gap {depth : Nat} {x : Char} {before before' s t : List Char} (spacing : Spacing before)
      (spacing' : Spacing before') (fits : C.free ∨ before = before')
      (apart : Apart x (before ++ s)) (apart' : Apart x (before' ++ t))
      (solid : Solid C depth s t) : Near C depth x (before ++ s) (before' ++ t)

end

variable {C : Comparison} {t : List Char}

def Behind (C : Comparison) (depth : Nat) (c : Char) (s t : List Char) : Prop :=
  match level depth c with
  | some deeper => C.Near deeper c s t
  | none => C.after s t

theorem Behind.near (behind : C.Behind depth c s t) (plain : Plain c) : C.Near depth c s t := by
  unfold Behind at behind
  rw [level_plain plain] at behind
  exact behind

theorem Solid.head (solid : C.Solid depth s t) : s.head? = t.head? := by
  cases solid <;> rfl

theorem Solid.tail (solid : C.Solid depth (c :: s) t) (unquoted : c ≠ '"') :
    ∃ rest, t = c :: rest ∧ C.Behind depth c s rest := by
  cases solid with
  | mark goesOn visible unquoted bare bare' behind =>
    refine ⟨_, rfl, ?_⟩
    unfold Behind
    rw [goesOn]
    exact behind
  | last ends behind =>
    refine ⟨_, rfl, ?_⟩
    unfold Behind
    rw [ends]
    exact behind
  | string => exact absurd rfl unquoted
  | same same =>
    refine ⟨s, rfl, ?_⟩
    unfold Behind
    split
    · exact .close (.same same)
    · exact C.after_same same s

theorem Solid.bare (solid : C.Solid depth s t) :
    (blankRun s = 0 ∧ blankRun t = 0) ∨ (C.same ∧ s = t) := by
  cases solid with
  | mark _ visible _ bare bare' _ =>
    exact .inl ⟨blankRun_bare visible bare, blankRun_bare visible bare'⟩
  | last ends _ =>
    obtain ⟨visible, slash, -⟩ := level_none ends
    exact .inl ⟨blankRun_visible visible slash, blankRun_visible visible slash⟩
  | string _ _ => exact .inl ⟨blankRun_visible rfl (by decide), blankRun_visible rfl (by decide)⟩
  | same same => exact .inr ⟨same, rfl⟩

theorem Near.solid_or_apart (near : C.Near depth x s t) :
    C.Solid depth s t ∨ Apart x s ∧ Apart x t := by
  cases near with
  | close solid => exact .inl solid
  | gap _ _ _ apart apart' _ => exact .inr ⟨apart, apart'⟩

def Shares (C : Comparison) (depth : Nat) (x : Char) (read s t : List Char) : Prop :=
  ∃ s' t', s = read ++ s' ∧ t = read ++ t' ∧ C.Near depth x s' t'

theorem Shares.cons {read : List Char} {last : Char} (shares : C.Shares depth last read s t)
    (c : Char) : C.Shares depth last (c :: read) (c :: s) (c :: t) := by
  obtain ⟨s', t', rfl, rfl, near⟩ := shares
  exact ⟨s', t', rfl, rfl, near⟩

theorem not_prefix_of_head {chars text : List Char} (other : text.head? ≠ some c) :
    ¬ c :: chars <+: text := by
  rintro ⟨rest, rfl⟩
  exact other rfl

theorem Near.literal {chars : List Char} (near : C.Near depth x s t)
    (chain : (x :: chars).IsChain (clash · ·)) (plain : ∀ c ∈ chars, Plain c) :
    C.Shares depth (chars.getLastD x) chars s t ∨ ¬ chars <+: s ∧ ¬ chars <+: t := by
  -- The next character would go on with the token, so there is no gap before it in either text.
  induction chars generalizing x s t with
  | nil => exact .inl ⟨s, t, rfl, rfl, near⟩
  | cons c chars ih =>
    obtain ⟨joins, chain⟩ := List.isChain_cons_cons.mp chain
    by_cases begins : s.head? = some c
    · obtain ⟨s, rfl⟩ := List.head?_eq_some_iff.mp begins
      rcases near.solid_or_apart with solid | ⟨apart, -⟩
      · obtain ⟨plain, others⟩ := List.forall_mem_cons.mp plain
        obtain ⟨t, rfl, behind⟩ := solid.tail plain.unquoted
        rcases ih (behind.near plain) chain others with shares | ⟨neither, nor⟩
        · rw [List.getLastD_cons]
          exact .inl (shares.cons c)
        · simp only [List.cons_prefix_cons, true_and]
          exact .inr ⟨neither, nor⟩
      · rw [apart c rfl] at joins
        cases joins
    · refine .inr ⟨not_prefix_of_head begins, not_prefix_of_head fun begins' => ?_⟩
      rcases near.solid_or_apart with solid | ⟨-, apart⟩
      · exact begins (solid.head.trans begins')
      · rw [apart c begins'] at joins
        cases joins

theorem Solid.literal {chars : List Char} (solid : C.Solid depth s t)
    (chain : (c :: chars).IsChain (clash · ·)) (plain : ∀ d ∈ c :: chars, Plain d) :
    C.Shares depth (chars.getLastD c) (c :: chars) s t ∨
      ¬ c :: chars <+: s ∧ ¬ c :: chars <+: t := by
  by_cases begins : s.head? = some c
  · obtain ⟨s, rfl⟩ := List.head?_eq_some_iff.mp begins
    obtain ⟨plain, others⟩ := List.forall_mem_cons.mp plain
    obtain ⟨t, rfl, behind⟩ := solid.tail plain.unquoted
    rcases (behind.near plain).literal chain others with shares | ⟨neither, nor⟩
    · exact .inl (shares.cons c)
    · simp only [List.cons_prefix_cons, true_and]
      exact .inr ⟨neither, nor⟩
  · exact .inr ⟨not_prefix_of_head begins,
      not_prefix_of_head fun begins' => begins (solid.head.trans begins')⟩

section
variable {set : CharClass} (within : ∀ c, set.contains c = true → wordPart.contains c = true)
include within

theorem takeWhile_of_apart {text : List Char} (apart : Apart x text)
    (part : wordPart.contains x = true) : text.takeWhile set.contains = [] := by
  cases text with
  | nil => rfl
  | cons y text =>
    refine List.takeWhile_cons_of_neg fun member => ?_
    have outside := head_of_apart apart part y rfl
    rw [within y member] at outside
    cases outside

theorem Near.takeWhile_eq_nil (near : C.Near depth x s t) (part : wordPart.contains x = true)
    (none : s.takeWhile set.contains = []) : t.takeWhile set.contains = [] := by
  rcases near.solid_or_apart with solid | ⟨-, apart⟩
  · cases t with
    | nil => rfl
    | cons y t =>
      obtain ⟨s, rfl⟩ := List.head?_eq_some_iff.mp solid.head
      refine List.takeWhile_cons_of_neg fun member => ?_
      rw [List.takeWhile_cons_of_pos member] at none
      cases none
  · exact takeWhile_of_apart within apart part

theorem Near.run (near : C.Near depth x s t) (part : wordPart.contains x = true) :
    s.takeWhile set.contains = t.takeWhile set.contains ∧ ∃ last, wordPart.contains last = true ∧
      C.Shares depth last (s.takeWhile set.contains) s t := by
  -- Gaps do not begin with a character of a word, so the run ends in both texts where a gap begins.
  induction s generalizing x t with
  | nil =>
    rw [near.takeWhile_eq_nil within part rfl]
    exact ⟨rfl, x, part, [], t, rfl, rfl, near⟩
  | cons c s ih =>
    by_cases member : set.contains c = true
    · have plain := plain_of_wordPart (within c member)
      rcases near.solid_or_apart with solid | ⟨apart, -⟩
      · obtain ⟨t, rfl, behind⟩ := solid.tail plain.unquoted
        obtain ⟨same, last, part, shares⟩ := ih (behind.near plain) (within c member)
        rw [List.takeWhile_cons_of_pos member, List.takeWhile_cons_of_pos member, ← same]
        exact ⟨rfl, last, part, shares.cons c⟩
      · have none := takeWhile_of_apart within apart part
        rw [List.takeWhile_cons_of_pos member] at none
        cases none
    · have none : (c :: s).takeWhile set.contains = [] := List.takeWhile_cons_of_neg member
      rw [none, near.takeWhile_eq_nil within part none]
      exact ⟨rfl, x, part, c :: s, t, rfl, rfl, near⟩

end

theorem Near.skip (near : C.Near depth x s t) : ∃ before before' s' t', s = before ++ s' ∧
    t = before' ++ t' ∧ blankRun s = before.length ∧ blankRun t = before'.length ∧
    (C.free ∨ before = before') ∧ C.Solid depth s' t' := by
  -- Before a token nothing is skipped; equal texts may begin with a gap of any kind.
  have solid_skip {s t : List Char} (solid : C.Solid depth s t) : ∃ before s' t',
      s = before ++ s' ∧ t = before ++ t' ∧ blankRun s = before.length ∧
      blankRun t = before.length ∧ C.Solid depth s' t' := by
    rcases solid.bare with ⟨bare, bare'⟩ | ⟨same, rfl⟩
    · exact ⟨[], s, t, rfl, rfl, bare, bare', solid⟩
    · obtain ⟨before, rest, rfl, run, -⟩ := exists_skipped s
      exact ⟨before, rest, rest, rfl, rfl, run, run, .same same⟩
  cases near with
  | close solid =>
    obtain ⟨before, s', t', rfl, rfl, run, run', solid⟩ := solid_skip solid
    exact ⟨before, before, s', t', rfl, rfl, run, run', .inr rfl, solid⟩
  | @gap _ _ before before' s t spacing spacing' fits _ _ solid =>
    obtain ⟨more, s', t', rfl, rfl, run, run', solid⟩ := solid_skip solid
    refine ⟨before ++ more, before' ++ more, s', t', by simp, by simp, ?_, ?_, ?_, solid⟩
    · rw [spacing.blankRun_append, run, List.length_append]
    · rw [spacing'.blankRun_append, run', List.length_append]
    · exact fits.imp id fun same => by rw [same]

end Comparison

end LeoFront.Grammar

import LeoFront.Proofs.Spacing.Comparison
import LeoFront.Proofs.Spacing.Trace
import Mathlib.Data.List.Forall2

/-!
# Texts with other gaps

Where a parser succeeds, its text is divided into tokens and gaps. A text with the same tokens and
other gaps has the same tokens in the sense of `Comparison`, if the texts behind have.

* `Frames` says so of a parser, from what is known behind it to what is known before it.
* `Frames.bind`, `Frames.or`, `Frames.many` and the like follow the combinators.
* `frames_token`, `frames_word`, `frames_blanks` are about terminals. A token must not go on into what
  comes behind it; that is known from what the next token may begin with.
-/

namespace LeoFront

/-- A gap may be replaced by blanks and comments that begin with a blank. -/
inductive Piece.Respaced : Piece → Piece → Prop
  | same (piece : Piece) : Respaced piece piece
  | gap (old : List Char) {c : Char} {rest : List Char} (blank : Grammar.isBlank c = true)
      (spacing : Grammar.Spacing (c :: rest)) : Respaced (.gap old) (.gap (c :: rest))

namespace Grammar
open LeoFront.Parser
open Piece (textOf)

variable {α β : Type} {C : Comparison} {depth : Nat} {x c : Char} {s t : List Char}
  {heads heads' : Char → Prop}

structure Solitary (text : List Char) : Prop where
  nonempty : text ≠ []
  plain : ∀ d ∈ text, Plain d
  inner : ∀ d ∈ text.tail, d ≠ '/' ∧ d ≠ '*'

instance (text : List Char) : Decidable (Solitary text) :=
  decidable_of_iff (text ≠ [] ∧ (∀ d ∈ text, Plain d) ∧ ∀ d ∈ text.tail, d ≠ '/' ∧ d ≠ '*')
    ⟨fun ⟨nonempty, plain, inner⟩ => ⟨nonempty, plain, inner⟩,
    fun token => ⟨token.nonempty, token.plain, token.inner⟩⟩

namespace Comparison

def Alters (C : Comparison) (piece piece' : Piece) : Prop :=
  piece = piece' ∨ C.free ∧ piece.Respaced piece'

def Heads (heads : Char → Prop) (s : List Char) : Prop :=
  blankRun s = 0 → ∃ y rest, s = y :: rest ∧ heads y

structure Begin (C : Comparison) (depth : Nat) (heads : Char → Prop) (s t : List Char) : Prop where
  head : Heads heads s
  solid : blankRun s = 0 → C.Solid depth s t

structure Ready (C : Comparison) (depth : Nat) (heads : Char → Prop) (s t : List Char) : Prop where
  head : Heads heads s
  near : blankRun s = 0 → ∀ x, Apart x s → C.Near depth x s t

/-- Two texts behind a token that does not go on into the first text. -/
structure Open (C : Comparison) (depth : Nat) (heads : Char → Prop) (s t : List Char) : Prop where
  head : Heads heads s
  near : ∀ x, Apart x s → C.Near depth x s t

theorem Heads.mono (known : Heads heads s) (weakens : ∀ y, heads y → heads' y) :
    Heads heads' s := by
  intro bare
  obtain ⟨y, rest, same, head⟩ := known bare
  exact ⟨y, rest, same, weakens y head⟩

theorem Begin.mono (weakens : ∀ y, heads y → heads' y) (s t : List Char)
    (begins : C.Begin depth heads s t) : C.Begin depth heads' s t :=
  ⟨begins.head.mono weakens, begins.solid⟩

theorem Begin.ready (s t : List Char) (begins : C.Begin depth heads s t) :
    C.Ready depth heads s t :=
  ⟨begins.head, fun bare _ _ => .close (begins.solid bare)⟩

theorem Open.mono (weakens : ∀ y, heads y → heads' y) (s t : List Char)
    (opens : C.Open depth heads s t) : C.Open depth heads' s t :=
  ⟨opens.head.mono weakens, opens.near⟩

theorem Open.ready (s t : List Char) (opens : C.Open depth heads s t) : C.Ready depth heads s t :=
  ⟨opens.head, fun _ => opens.near⟩

theorem Ready.mono (weakens : ∀ y, heads y → heads' y) (s t : List Char)
    (ready : C.Ready depth heads s t) : C.Ready depth heads' s t :=
  ⟨ready.head.mono weakens, ready.near⟩

theorem Near.bare (near : C.Near depth '/' s t)
    (bare : s.head? ≠ some '/' ∧ s.head? ≠ some '*') :
    t.head? ≠ some '/' ∧ t.head? ≠ some '*' := by
  rcases near.solid_or_apart with solid | ⟨-, apart⟩
  · rw [← solid.head]
    exact bare
  · refine ⟨fun head => ?_, fun head => ?_⟩ <;>
      · have joins := apart _ head
        revert joins
        decide

theorem bare_of_slash (bare : blankRun ('/' :: s) = 0) (star : s.head? ≠ some '*') :
    s.head? ≠ some '/' ∧ s.head? ≠ some '*' := by
  refine ⟨fun line => ?_, star⟩
  obtain ⟨rest, rfl⟩ := List.head?_eq_some_iff.mp line
  rw [blankRun] at bare
  omega

theorem solid_of_token {chars : List Char} (plain : ∀ d ∈ c :: chars, Plain d)
    (inner : ∀ d ∈ chars, d ≠ '/' ∧ d ≠ '*')
    (bare : chars = [] → c = '/' → s.head? ≠ some '/' ∧ s.head? ≠ some '*')
    (near : C.Near depth (chars.getLastD c) s t) :
    C.Solid depth (c :: (chars ++ s)) (c :: (chars ++ t)) := by
  -- inside a token one character closes on the next; only the last has something else behind it
  induction chars generalizing c with
  | nil =>
    obtain ⟨plain, -⟩ := List.forall_mem_cons.mp plain
    refine .mark (level_plain plain depth) plain.visible plain.unquoted (bare rfl) ?_ near
    rintro rfl
    exact near.bare (bare rfl rfl)
  | cons d chars ih =>
    obtain ⟨plain, others⟩ := List.forall_mem_cons.mp plain
    obtain ⟨⟨slash, star⟩, inner⟩ := List.forall_mem_cons.mp inner
    rw [List.getLastD_cons] at near
    have solid := ih others inner (fun _ same => absurd same slash) near
    have next : c = '/' → some d ≠ some '/' ∧ some d ≠ some '*' := by simp [slash, star]
    exact .mark (level_plain plain depth) plain.visible plain.unquoted next next (.close solid)

theorem Heads.apart (known : Heads heads s) (apart : ∀ y, heads y → clash x y = false)
    (slash : x = '/' → s.head? ≠ some '/') : Apart x s := by
  intro y head
  by_cases bare : blankRun s = 0
  · obtain ⟨z, rest, rfl, member⟩ := known bare
    cases head
    exact apart y member
  -- a gap begins with a blank, or with the slash of a comment
  rcases head_of_blankRun bare y head with blank | rfl
  · exact clash_blank blank
  · exact clash_slash fun same => slash same head

theorem Open.begin {text : List Char} (opens : C.Open depth heads s t) (token : Solitary text)
    (apart : ∀ x ∈ text.getLast?, ∀ y, heads y → clash x y = false) :
    C.Begin depth (text.head? = some ·) (text ++ s) (text ++ t) := by
  obtain ⟨c, chars, rfl⟩ := List.exists_cons_of_ne_nil token.nonempty
  refine ⟨fun _ => ⟨c, chars ++ s, rfl, rfl⟩, fun bare => ?_⟩
  have joins (y : Char) (head : heads y) : clash (chars.getLastD c) y = false :=
    apart _ (by rw [List.getLast?_cons, List.getLastD_eq_getLast?]; rfl) y head
  -- a token that ends with a slash is a slash, and what is behind it must not make it a comment
  have single (slash : chars.getLastD c = '/') : chars = [] := by
    by_contra more
    have member : chars.getLastD c ∈ chars := by
      rw [List.getLastD_eq_getLast?, List.getLast?_eq_some_getLast more]
      exact List.getLast_mem more
    exact (token.inner _ member).1 slash
  have lone (empty : chars = []) (slash : c = '/') : s.head? ≠ some '/' ∧ s.head? ≠ some '*' := by
    subst empty slash
    refine bare_of_slash bare fun star => ?_
    obtain ⟨rest, rfl⟩ := List.head?_eq_some_iff.mp star
    obtain ⟨y, _, same, head⟩ := opens.head (blankRun_visible (by decide) (by decide))
    cases same
    have apart := joins '*' head
    revert apart
    decide
  refine solid_of_token token.plain token.inner lone (opens.near _ ?_)
  refine opens.head.apart joins fun slash => ?_
  have empty := single slash
  subst empty
  exact (lone rfl slash).1

theorem Near.prepend {gap gap' : List Char} (spacing : Spacing gap) (spacing' : Spacing gap')
    (fits : C.free ∨ gap = gap') (apart : Apart x (gap ++ s)) (apart' : Apart x (gap' ++ t))
    (near : C.Near depth ' ' s t) : C.Near depth x (gap ++ s) (gap' ++ t) := by
  cases near with
  | close solid => exact .gap spacing spacing' fits apart apart' solid
  | @gap _ _ more more' s t further further' fits' _ _ solid =>
    rw [← List.append_assoc] at apart apart'
    rw [← List.append_assoc, ← List.append_assoc]
    refine .gap (spacing.append further) (spacing'.append further') ?_ apart apart' solid
    rcases fits with free | rfl
    · exact .inl free
    · exact fits'.imp id fun same => by rw [same]

theorem Ready.open {gap : List Char} {piece : Piece} (ready : C.Ready depth heads s t)
    (skipped : Skipped gap s) (altered : C.Alters (.gap gap) piece) :
    C.Open depth heads (gap ++ s) (piece.text ++ t) := by
  obtain ⟨y, rest, same, head⟩ := ready.head skipped.bare
  have spacing := skipped.spacing (by simp [same])
  have near := ready.near skipped.bare
  refine ⟨fun bare => ?_, fun x apart => ?_⟩
  · rw [spacing.blankRun_append, skipped.bare] at bare
    obtain rfl := List.length_eq_zero_iff.mp bare
    exact ⟨y, rest, same, head⟩
  have loose : C.Near depth ' ' s t :=
    near ' ' fun _ _ => clash_of_first (by decide) (.inl (by decide))
  have unaltered (same : piece = .gap gap) : C.Near depth x (gap ++ s) (piece.text ++ t) := by
    subst same
    cases gap with
    -- without a gap the token before may end at what comes behind
    | nil => exact near x apart
    | cons c gap => exact loose.prepend spacing spacing (.inr rfl) apart apart
  rcases altered with same | ⟨free, respaced⟩
  · exact unaltered same.symm
  · cases respaced with
    | same => exact unaltered rfl
    | gap _ blank spacing' =>
      refine loose.prepend spacing spacing' (.inl free) apart fun z first => ?_
      cases first
      exact clash_blank blank

end Comparison

theorem forall₂_append {α β : Type} {R : α → β → Prop} {first second : List α} {whole : List β}
    (related : List.Forall₂ R (first ++ second) whole) : ∃ first' second',
      whole = first' ++ second' ∧ List.Forall₂ R first first' ∧ List.Forall₂ R second second' := by
  have related := related.flip
  exact ⟨whole.take first.length, whole.drop first.length, (List.take_append_drop _ _).symm,
    (List.forall₂_take_append _ _ _ related).flip, (List.forall₂_drop_append _ _ _ related).flip⟩

section
variable {p q : Parser α} {next : α → Parser β}
  {behind behind' middle before before' : List Char → List Char → Prop}

/-- Where a parser succeeds, texts that are compared behind what it reads are compared before it, with
other gaps in the second one. -/
def Frames (C : Comparison) (p : Parser α) [Traced p]
    (behind before : List Char → List Char → Prop) : Prop :=
  ∀ cursor value after pieces t, (p cursor).result = some (value, after) →
    List.Forall₂ C.Alters (Traced.pieces p cursor) pieces → behind after.rest t →
    before cursor.rest (textOf pieces ++ t)

namespace Frames

theorem imp [Traced p] (frames : Frames C p behind before)
    (narrows : ∀ s t, behind' s t → behind s t) (widens : ∀ s t, before s t → before' s t) :
    Frames C p behind' before' :=
  fun cursor value after pieces t read alters goesOn =>
    widens _ _ (frames cursor value after pieces t read alters (narrows _ _ goesOn))

theorem widen [Traced p] (frames : Frames C p behind (C.Begin depth heads))
    (weakens : ∀ y, heads y → heads' y) : Frames C p behind (C.Begin depth heads') :=
  frames.imp (fun _ _ => id) (Comparison.Begin.mono weakens)

theorem pure {value : α} (implied : ∀ s t, behind s t → before s t) :
    Frames C (Pure.pure value : Parser α) behind before := by
  intro cursor _ _ pieces t read alters goesOn
  cases read
  cases alters
  exact implied _ _ goesOn

theorem fail : Frames C (fail : Parser α) behind before := by
  intro _ _ _ _ _ read
  cases read

theorem bind [Traced p] [∀ value, Traced (next value)] (first : Frames C p middle before)
    (onward : ∀ value, Frames C (next value) behind middle) :
    Frames C (p >>= next) behind before := by
  intro cursor value after pieces t read alters goesOn
  obtain ⟨head, between, here, later⟩ := bind_some.mp read
  rw [pieces_bind here] at alters
  obtain ⟨pieces, pieces', rfl, alters, alters'⟩ := forall₂_append alters
  rw [Piece.textOf_append, List.append_assoc]
  exact first cursor head between pieces _ here alters
    (onward head between value after pieces' t later alters' goesOn)

theorem or [Traced p] [Traced q] (first : Frames C p behind before)
    (second : Frames C q behind before) : Frames C (p.or q) behind before := by
  intro cursor value after pieces t read alters goesOn
  rw [result_or] at read
  rw [pieces_or] at alters
  rcases here : (p cursor).result with _ | success
  · rw [here] at read alters
    exact second cursor value after pieces t read alters goesOn
  · rw [here] at read alters
    cases read
    exact first cursor value after pieces t here alters goesOn

theorem optional [Traced p] (frames : Frames C p behind before)
    (skips : ∀ s t, behind s t → before s t) : Frames C (optional p) behind before :=
  or (bind frames fun _ => pure fun _ _ => id) (pure skips)

theorem spanned {p : Parser (Span → α)} [Traced p] (frames : Frames C p behind before) :
    Frames C (spanned p) behind before := by
  intro cursor value after pieces t read alters goesOn
  obtain ⟨make, inner, -⟩ := spanned_some.mp read
  exact frames cursor make after pieces t inner alters goesOn

theorem manyWithin [Traced p] (frames : Frames C p before before) (bound : List Char) :
    Frames C (manyWithin p bound) before before := by
  induction bound with
  | nil => exact pure fun _ _ => id
  | cons _ bound ih =>
    exact or (bind frames fun _ => bind ih fun _ => pure fun _ _ => id) (pure fun _ _ => id)

theorem many [Traced p] (frames : Frames C p before before) : Frames C (many p) before before :=
  fun cursor value after pieces t => frames.manyWithin cursor.bound cursor value after pieces t

theorem bounded {within : List Char → Parser α} [∀ bound, Traced (within bound)]
    (frames : ∀ bound, Frames C (within bound) behind before) :
    Frames C (bounded within) behind before :=
  fun cursor value after pieces t => frames cursor.bound cursor value after pieces t

end Frames

theorem frames_token [Advances p] (reads : ∀ cursor value after text,
      (p cursor).result = some (value, after) → cursor.rest = text ++ after.rest →
      ∀ t, behind after.rest t → before cursor.rest (text ++ t)) :
    @Frames _ C p (traced_token p) behind before := by
  intro cursor value after pieces t read alters goesOn
  obtain ⟨text, whole, -⟩ := Advances.reaches _ _ _ read
  simp only [Traced.pieces, read] at alters
  rw [whole, List.length_append, Nat.add_sub_cancel, List.take_left] at alters
  obtain ⟨piece, others, altered, none, rfl⟩ := List.forall₂_cons_left_iff.mp alters
  obtain rfl := List.forall₂_nil_left_iff.mp none
  -- only gaps are replaced
  have same : piece = .token text := by
    rcases altered with same | ⟨-, respaced⟩
    · exact same.symm
    · cases respaced
      rfl
  rw [same, Piece.textOf_cons, Piece.textOf_nil, List.append_nil]
  exact reads cursor value after text read whole t goesOn

end

section
variable {text : String} {deeper : Nat}

theorem frames_text {behind before : List Char → List Char → Prop}
    (reads : ∀ s t, behind s t → before (text.toList ++ s) (text.toList ++ t)) :
    Frames C (literal text) behind before := by
  refine frames_token fun cursor value after read readable whole t goesOn => ?_
  have written := literal_rest readable
  obtain rfl := List.append_cancel_right (whole.symm.trans written)
  rw [written]
  exact reads _ _ goesOn

theorem frames_literal (token : Solitary text.toList)
    (apart : ∀ x ∈ text.toList.getLast?, ∀ y, heads y → clash x y = false)
    (begins : ∀ y ∈ text.toList.head?, heads' y) :
    Frames C (literal text) (C.Open depth heads) (C.Begin depth heads') :=
  frames_text fun _ _ opens => (opens.begin token apart).mono begins _ _

structure Mark (c : Char) : Prop where
  visible : isBlank c = false
  unquoted : c ≠ '"'
  outside : wordPart.contains c = false
  alone : ∀ pair ∈ symbolPairs, pair.1 ≠ c

instance (c : Char) : Decidable (Mark c) :=
  decidable_of_iff (isBlank c = false ∧ c ≠ '"' ∧ wordPart.contains c = false ∧
      ∀ pair ∈ symbolPairs, pair.1 ≠ c)
    ⟨fun ⟨visible, unquoted, outside, alone⟩ => ⟨visible, unquoted, outside, alone⟩,
    fun mark => ⟨mark.visible, mark.unquoted, mark.outside, mark.alone⟩⟩

theorem frames_mark (single : text.toList = [c]) (goesOn : level depth c = some deeper)
    (mark : Mark c) (begins : heads' c) :
    Frames C (literal text) (C.Open deeper heads) (C.Begin depth heads') := by
  refine frames_text fun s t opens => ?_
  rw [single]
  have slash : c ≠ '/' := fun same => mark.alone ('/', '/') (by decide) same.symm
  refine ⟨fun _ => ⟨c, s, rfl, begins⟩, fun _ => ?_⟩
  refine .mark goesOn mark.visible mark.unquoted (absurd · slash) (absurd · slash) (opens.near c ?_)
  exact fun y _ => clash_of_first mark.alone (.inl mark.outside)

theorem frames_separator (single : text.toList = [c]) (separator : Plain c ∧ Mark c)
    (begins : heads' c) : Frames C (literal text) (C.Open depth heads) (C.Begin depth heads') :=
  frames_mark single (level_plain separator.1 depth) separator.2 begins

theorem frames_last (single : text.toList = [c]) (ends : level depth c = none) (begins : heads' c) :
    Frames C (literal text) C.after (C.Begin depth heads') := by
  refine frames_text fun s t after => ?_
  rw [single]
  exact ⟨fun _ => ⟨c, s, rfl, begins⟩, fun _ => .last ends after⟩

def ReadsWord (p : Parser α) : Prop :=
  ∀ cursor value after, (p cursor).result = some (value, after) → ∃ text,
    cursor.rest = text ++ after.rest ∧ text ≠ [] ∧ (∀ c ∈ text, wordPart.contains c = true) ∧
    ∀ y ∈ after.rest.head?, wordPart.contains y = false

abbrev Broken (y : Char) : Prop := wordPart.contains y = false

theorem Comparison.Open.begin_parts {text s t : List Char} (opens : C.Open depth Broken s t)
    (nonempty : text ≠ []) (parts : ∀ c ∈ text, wordPart.contains c = true) :
    C.Begin depth (wordPart.contains · = true) (text ++ s) (text ++ t) := by
  have token : Solitary text := by
    refine ⟨nonempty, fun d member => plain_of_wordPart (parts d member), fun d member => ?_⟩
    have part := parts d (List.mem_of_mem_tail member)
    refine ⟨?_, ?_⟩ <;>
      · rintro rfl
        revert part
        decide
  refine (opens.begin token fun x last y => ?_).mono (fun y head => ?_) _ _
  · exact clash_word (parts x (List.mem_of_mem_getLast? last))
  · exact parts y (List.mem_of_mem_head? head)

theorem frames_word {p : Parser α} [Advances p] (word : ReadsWord p) :
    @Frames _ C p (traced_token p) (C.Open depth heads)
      (C.Begin depth (wordPart.contains · = true)) := by
  refine frames_token fun cursor value after read readable whole t opens => ?_
  obtain ⟨text, written, nonempty, parts, ends⟩ := word cursor value after readable
  obtain rfl := List.append_cancel_right (whole.symm.trans written)
  rw [written]
  have broken : C.Open depth Broken after.rest t := by
    refine ⟨fun bare => ?_, opens.near⟩
    obtain ⟨y, rest, same, -⟩ := opens.head bare
    exact ⟨y, rest, same, ends y (by rw [same]; rfl)⟩
  exact broken.begin_parts nonempty parts

theorem frames_blanks :
    Frames C blanks (C.Ready depth heads) (C.Open depth heads) := by
  intro cursor value after pieces t read alters ready
  obtain ⟨gap, rest, whole, run, skipped⟩ := exists_skipped cursor.rest
  obtain rfl : after = cursor.skip gap.length := by
    cases read
    rw [run]
  obtain ⟨piece, others, altered, none, rfl⟩ := List.forall₂_cons_left_iff.mp alters
  obtain rfl := List.forall₂_nil_left_iff.mp none
  rw [Piece.textOf_cons, Piece.textOf_nil, List.append_nil]
  rw [run, whole, List.take_left] at altered
  simp only [Cursor.skip, whole, List.drop_left] at ready
  rw [whole]
  exact ready.open skipped altered

theorem frames_gap : Frames C blanks (C.Begin depth heads) (C.Open depth heads) :=
  frames_blanks.imp Comparison.Begin.ready fun _ _ => id

theorem Frames.spaced {p : Parser α} {next : α → Parser β} [Traced p] [∀ value, Traced (next value)]
    {behind before : List Char → List Char → Prop} (first : Frames C p (C.Open depth heads) before)
    (onward : ∀ value, Frames C (next value) behind (C.Begin depth heads)) :
    Frames C (p >>= fun value => blanks >>= fun _ => next value) behind before :=
  .bind first fun value => .bind frames_gap fun _ => onward value

end

end Grammar

end LeoFront

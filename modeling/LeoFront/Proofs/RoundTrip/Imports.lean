import LeoFront.Proofs.RoundTrip.Statements

namespace LeoFront.Grammar
open LeoFront.Parser
variable {tokens ts : List Token} {t : Token} {bound : List Char}

structure AfterAccess (ts : List Token) : Prop where
  solid : Solid ts
  noPoint : Rejects (literal ".") (spaced ts)
  noAlias : Rejects (word "as") (spaced ts)

theorem afterAccess_closer {mark : String} (closer : mark ∈ [",", ")", ";"]) (ts : List Token) :
    AfterAccess (mark.toList :: ts) := by
  simp only [List.mem_cons, List.not_mem_nil, or_false] at closer
  rcases closer with rfl | rfl | rfl <;> exact ⟨rfl, fun _ => rfl, fun _ => rfl⟩

theorem accepts_importSymbol {taken : ImportSymbol} (wellFormed : taken.WellFormed)
    (after : AfterAccess ts) :
    Accepts importSymbol (spaced (taken.tokens ++ ts)) (·.erase = taken.erase) (gap ts) := by
  obtain ⟨symbol, renamed, span⟩ := taken
  have isName : symbol.WellFormed := wellFormed.symbol
  refine Accepts.spanned ((accepts_identifier isName _).bind fun name sameName => ?_)
  cases renamed with
  | none =>
    have noAlias : Rejects (do
        blanks
        word "as"
        blanks
        Grammar.identifier) (gap ts) :=
      (accepts_blanks after.solid).bind_rejects fun _ _ => after.noAlias.bind
    refine noAlias.optional.bind fun read none => accepts_pure fun span => ?_
    rw [ImportSymbol.erase, ImportSymbol.erase, sameName, none]
  | some other =>
    have isOther : other.WellFormed := wellFormed.renamed other rfl
    have readsOther : Accepts (do
        blanks
        word "as"
        blanks
        Grammar.identifier) (gap ("as".toList :: other.name.toList :: ts))
        (·.erase = other.erase) (gap ts) := by
      refine (accepts_blanks_before "as" _ rfl).bind fun _ _ => ?_
      refine (accepts_word "as" _).bind fun _ _ => ?_
      refine (accepts_blanks (IsName.solid isOther ts)).bind fun _ _ => ?_
      exact accepts_identifier isOther ts
    refine readsOther.optional.bind fun read known => accepts_pure fun span => ?_
    obtain ⟨found, rfl, same⟩ := known
    rw [ImportSymbol.erase, ImportSymbol.erase, sameName, Option.map_some, Option.map_some, same]

theorem rejects_packageOver {taken : ImportSymbol} (wellFormed : taken.WellFormed)
    (after : AfterAccess ts) (inner : Parser Access) :
    Rejects (packageOver inner) (spaced (taken.tokens ++ ts)) := by
  obtain ⟨symbol, renamed, span⟩ := taken
  have isName : symbol.WellFormed := wellFormed.symbol
  refine Rejects.spanned ((accepts_identifier isName _).bind_rejects fun name _ => ?_)
  cases renamed with
  | none => exact (accepts_blanks after.solid).bind_rejects fun _ _ => after.noPoint.bind
  | some other =>
    have noPoint (rest : List Token) : Rejects (literal ".") (spaced ("as".toList :: rest)) :=
      fun _ => rfl
    exact (accepts_blanks_before "as" _ rfl).bind_rejects fun _ _ => (noPoint _).bind

theorem accepts_packageOver {inner : Parser Access} {name : Identifier} {access : Access}
    {rest : List Char} (isName : name.WellFormed) (solid : Solid ts)
    (accepts : Accepts inner (spaced ts) (·.erase = access.erase) rest) :
    Accepts (packageOver inner) (spaced (name.name.toList :: ".".toList :: ts))
      (·.erase = ⟨name.erase, access.erase, .none⟩) rest := by
  refine Accepts.spanned ((accepts_identifier isName _).bind fun read sameName => ?_)
  refine accepts_past "." ts rfl ((accepts_blanks solid).bind fun _ _ => ?_)
  refine accepts.bind fun inside same => accepts_pure fun span => ?_
  rw [Package.erase, sameName, same]

theorem IsRun.rejects_mark (run : IsRun t) (mark : String) {c : Char} (same : mark.toList = [c])
    (blankless : c ≠ ' ') (other : wordPart.contains c = false) (ts : List Token) :
    Rejects (literal mark) (spaced (t :: ts)) := by
  refine rejects_literal ?_ ?_
  · simpa [same] using blankless.symm
  · rw [same]
    rintro ⟨more, rfl⟩
    have part := run.2 c (by simp)
    rw [other] at part
    cases part

theorem IsName.chooses_access {name : String} {inner : Parser Access} {good : Access → Prop}
    {rest : List Char} (isName : IsName name)
    (accepts : Accepts (firstOf [
      do
        let package ← packageOver inner
        return Access.subPackage package.name package.access package.span,
      do return .symbol (← importSymbol)]) (spaced (name.toList :: ts)) good rest) :
    Accepts (accessOver inner) (spaced (name.toList :: ts)) good rest := by
  have run := IsWord.run isName.word
  have noStar := run.rejects_mark "*" rfl (by decide) (by decide) ts
  have noGroup := run.rejects_mark "(" rfl (by decide) (by decide) ts
  exact noStar.bind.spanned.firstOf_tail (noGroup.bind.spanned.firstOf_tail accepts)

theorem solid_access {access : Access} (wellFormed : access.WellFormed) (ts : List Token) :
    Solid (access.tokens ++ ts) := by
  cases access with
  | star | multiple => rfl
  | symbol taken => exact IsName.solid (ImportSymbol.WellFormed.symbol wellFormed) _
  | subPackage name access => exact IsName.solid wellFormed.1 _

structure ReadsAccess (inner : Parser Access) (piece : Access × List Token) : Prop where
  solid : ∀ ts, Solid (piece.2 ++ ts)
  accepts : ∀ ts, AfterAccess ts →
    Accepts inner (spaced (piece.2 ++ ts)) (·.erase = piece.1.erase) (gap ts)

theorem accepts_group {inner : Parser Access} {pieces : List (Access × List Token)}
    (nonempty : pieces ≠ []) (reads : ∀ piece ∈ pieces, ReadsAccess inner piece)
    (ts : List Token) :
    Accepts (accessOver inner)
      (spaced ("(".toList :: (commas (pieces.map Prod.snd) ++ ")".toList :: ts)))
      (·.erase = .multiple (Access.eraseEach (pieces.map Prod.fst)) .none) (gap ts) := by
  have readable : Readable inner (fun access value => value.erase = access.erase)
      (")".toList :: ts) pieces := by
    constructor
    case solid => exact fun piece member => (reads piece member).solid
    case accepts =>
      intro piece member after behind
      refine (reads piece member).accepts after ?_
      rcases behind with rfl | ⟨more, rfl⟩
      · exact afterAccess_closer (by decide) ts
      · exact afterAccess_closer (by decide) more
  have noStar (rest : List Token) : Rejects (literal "*") (spaced ("(".toList :: rest)) :=
    fun _ => rfl
  have noComma : Rejects (literal ",") (spaced (")".toList :: ts)) := fun _ => rfl
  have solid : Solid (")".toList :: ts) := rfl
  have inside := solid_commas readable.solid solid
  refine (noStar _).bind.spanned.firstOf_tail (Accepts.firstOf_head (Accepts.spanned ?_))
  refine (accepts_literal "(" _).bind fun _ _ => (accepts_blanks inside).bind fun _ _ => ?_
  refine (accepts_separated readable nonempty solid noComma).bind fun values all => ?_
  refine (accepts_blanks solid).bind fun _ _ => noComma.optional.bind fun _ _ => ?_
  refine (accepts_no_blanks solid).bind fun _ _ => ?_
  refine (accepts_literal ")" ts).bind fun _ _ => accepts_pure fun span => ?_
  rw [Access.erase, Access.eraseEach_eq_map, Access.eraseEach_eq_map, map_eq_of_forall₂ all]

mutual

theorem accepts_accessWithin (access : Access) (wellFormed : access.WellFormed)
    (bound : List Char) (within : access.tokens.length ≤ bound.length) (ts : List Token)
    (after : AfterAccess ts) :
    Accepts (accessWithin bound) (spaced (access.tokens ++ ts)) (·.erase = access.erase)
      (gap ts) := by
  -- only groups and packages nest, and both have a token before what is inside
  cases bound with
  | nil => cases access <;> simp [Access.tokens, ImportSymbol.tokens] at within
  | cons c bound =>
    rw [List.length_cons] at within
    cases access with
    | star span =>
      refine Accepts.firstOf_head (Accepts.spanned ?_)
      exact (accepts_literal "*" ts).bind fun _ _ => accepts_pure fun _ => rfl
    | symbol taken =>
      have isSymbol : taken.WellFormed := wellFormed
      have noPackage := rejects_packageOver isSymbol after (accessWithin bound)
      refine IsName.chooses_access isSymbol.symbol ?_
      refine noPackage.bind.firstOf_tail (Accepts.firstOf_head ?_)
      refine (accepts_importSymbol isSymbol after).bind fun read same => accepts_pure ?_
      rw [Access.erase, Access.erase, same]
    | subPackage name access span =>
      simp only [Access.tokens, List.length_cons] at within
      have accepts := accepts_accessWithin access wellFormed.2 bound (by omega) ts after
      refine IsName.chooses_access wellFormed.1 (Accepts.firstOf_head ?_)
      refine (accepts_packageOver wellFormed.1 (solid_access wellFormed.2 ts) accepts).bind
        fun package same => accepts_pure ?_
      obtain ⟨sameName, sameAccess, _⟩ := Package.mk.inj same
      rw [Access.erase, Access.erase, sameName, sameAccess]
    | multiple accesses span =>
      simp only [Access.tokens, List.length_cons, List.length_append, List.length_nil] at within
      have short : ∀ tokens ∈ Access.tokensEach accesses, tokens.length ≤ bound.length := by
        intro tokens member
        have le := length_le_commas member
        omega
      obtain ⟨pieces, same, tokens, reads⟩ :=
        accepts_accesses accesses wellFormed.2 bound short
      have nonempty : pieces ≠ [] := by
        rintro rfl
        exact wellFormed.1 same.symm
      have accepts := accepts_group nonempty reads ts
      rw [same, tokens] at accepts
      rw [Access.tokens, List.cons_append, List.cons_append, List.append_assoc]
      exact accepts

theorem accepts_accesses (accesses : List Access) (wellFormed : Access.EachWellFormed accesses)
    (bound : List Char)
    (within : ∀ tokens ∈ Access.tokensEach accesses, tokens.length ≤ bound.length) :
    ∃ pieces : List (Access × List Token), pieces.map Prod.fst = accesses ∧
      pieces.map Prod.snd = Access.tokensEach accesses ∧
      ∀ piece ∈ pieces, ReadsAccess (accessWithin bound) piece := by
  cases accesses with
  | nil => exact ⟨[], rfl, rfl, by simp⟩
  | cons first rest =>
    rw [Access.tokensEach, List.forall_mem_cons] at within
    obtain ⟨pieces, same, tokens, reads⟩ := accepts_accesses rest wellFormed.2 bound within.2
    have accepts := accepts_accessWithin first wellFormed.1 bound within.1
    refine ⟨(first, first.tokens) :: pieces, by simp [same], ?_, ?_⟩
    · rw [List.map_cons, tokens, Access.tokensEach]
    · rintro piece (_ | ⟨_, member⟩)
      · exact ⟨solid_access wellFormed.1, accepts⟩
      · exact reads piece member

end

theorem accepts_access {access : Access} (wellFormed : access.WellFormed) (after : AfterAccess ts) :
    Accepts Grammar.access (spaced (access.tokens ++ ts)) (·.erase = access.erase) (gap ts) := by
  intro position
  have within := length_le_bound (access.tokens ++ ts) position
  rw [List.length_append] at within
  exact accepts_accessWithin access wellFormed _ (Nat.le_of_add_right_le within) ts after position

theorem accepts_importStatement {statement : Import} (wellFormed : statement.WellFormed)
    (ts : List Token) :
    Accepts importStatement (spaced (statement.tokens ++ ts)) (·.erase = statement.erase)
      (gap ts) := by
  have after := afterAccess_closer (show ";" ∈ [",", ")", ";"] by decide) ts
  have isName := wellFormed.name
  have accepts := accepts_packageOver isName (solid_access wellFormed.access _)
    (accepts_access wellFormed.access after)
  simp only [Import.tokens, List.cons_append, List.append_assoc, List.nil_append]
  refine Accepts.spanned ((accepts_word "import" _).bind fun _ _ => ?_)
  refine (accepts_blanks (IsName.solid isName _)).bind fun _ _ => ?_
  refine accepts.bind fun package same => ?_
  refine accepts_past ";" ts rfl (accepts_pure fun span => ?_)
  rw [Import.erase, Import.erase, same, Package.erase]

end LeoFront.Grammar

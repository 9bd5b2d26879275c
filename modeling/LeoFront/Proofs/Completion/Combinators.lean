import LeoFront.Proofs.Completion.Viable

namespace LeoFront.Grammar
open LeoFront.Parser
open Text (units16)
variable {α β γ : Type} {C : Comparison} {P P' M Q Q' : Place} {p p' q q' : Parser α}
  {agree weaker : α → α → Prop} {next next' : α → Parser β} {agree' : β → β → Prop}
  {sample sample' : List Char}

section
variable {r : Parser α} {cursor : Cursor}

theorem or_congr_at (same : (p cursor).result = none → q cursor = r cursor) :
    p.or q cursor = p.or r cursor := by
  unfold Parser.or
  revert same
  rcases p cursor with ⟨_ | success, furthest⟩
  · intro same
    rw [same rfl]
  · exact fun _ => rfl

theorem or_congr_left (same : p cursor = q cursor) : p.or r cursor = q.or r cursor := by
  unfold Parser.or
  rw [same]

theorem bind_congr_at (same : p cursor = q cursor) : (p >>= next) cursor = (q >>= next) cursor := by
  change Parser.bind p next cursor = Parser.bind q next cursor
  unfold Parser.bind
  rw [same]

end

theorem takes_nothing {text rest : List Char} {position : Position} {value other : α}
    (read : Takes (Pure.pure other) position text value rest) : text = [] ∧ value = other := by
  have same := Option.some.inj read
  have texts : text ++ rest = rest := congrArg (fun made : α × Cursor => made.2.rest) same
  exact ⟨List.append_left_eq_self.mp texts, (congrArg Prod.fst same).symm⟩

theorem Takes.spanned {p : Parser (Span → α)} {position : Position} {text rest : List Char}
    {make : Span → α} (taken : Takes p position text make rest) :
    Takes (Parser.spanned p) position text (make ⟨position, position.after text⟩) rest :=
  spanned_some.mpr ⟨make, taken, rfl⟩

theorem furthest_spanned (p : Parser (Span → α)) (cursor : Cursor) :
    (Parser.spanned p cursor).furthest = (p cursor).furthest := by
  unfold Parser.spanned
  rcases p cursor with ⟨_ | ⟨make, after⟩, furthest⟩ <;> rfl

namespace Viable

theorem skips {value value' : α} (known : agree value value') (within : Q.Within P)
    (reads : ∀ position rest, Q.Allows rest → Takes q position [] value' rest) :
    Viable C P (Pure.pure value) q agree Q where
  advances := by
    intro cursor _ _ read
    cases read
    exact .refl cursor
  honest _ := honest_none
  ends := by
    intro position text _ rest stands read
    obtain ⟨rfl, rfl⟩ := takes_nothing read
    exact ⟨within.stands.mpr stands, fun bare => .inl ⟨rfl, within.bare ▸ bare⟩⟩
  keeps := by
    intro position text _ rest position' _ read _
    obtain ⟨rfl, rfl⟩ := takes_nothing read
    exact ⟨value', fun rest' related =>
      ⟨within.relates related, reads position' rest' (Q.allows_of_relates related), known⟩⟩
  completes := fun _ _ noted _ => absurd rfl noted.1

theorem pure {value value' : α} (known : agree value value') (within : Q.Within P) :
    Viable C P (Pure.pure value) (Pure.pure value') agree Q :=
  .skips known within fun _ _ _ => rfl

theorem fail : Viable C P fail q agree Q where
  advances := nofun
  honest _ := honest_none
  ends := nofun
  keeps := nofun
  completes := fun _ _ noted _ => absurd rfl noted.1

theorem imp (viable : Viable C P p q agree Q) (weakens : ∀ value value', agree value value' →
    weaker value value') (wider : P.Within P') (within : Q'.Within Q) :
    Viable C P' p q weaker Q' where
  advances := viable.advances
  honest := viable.honest
  ends := by
    intro position text value rest stands read
    have both := viable.ends (wider.stands.mpr stands) read
    rw [wider.bare, ← within.bare] at both
    exact ⟨within.stands.mpr both.1, both.2⟩
  keeps := by
    intro position text value rest position' stands read same
    obtain ⟨value', again⟩ := viable.keeps position' (wider.stands.mpr stands) read same
    refine ⟨value', fun rest' related => ?_⟩
    obtain ⟨related, read, known⟩ := again rest' (within.relates related)
    exact ⟨wider.relates related, read, weakens _ _ known⟩
  completes := by
    intro position text offset position' stands noted same
    have both := viable.completes position' (wider.stands.mpr stands) noted same
    rw [wider.bare] at both
    refine both.imp id ?_
    rintro ⟨read, unread, more, rfl, units, goesOn⟩
    refine ⟨read, unread, more, rfl, units, fun rest fresh => ?_⟩
    obtain ⟨related, taken⟩ := goesOn rest (within.fresh fresh)
    exact ⟨wider.relates related, taken⟩

theorem each (each : ∀ cursor, ∃ p', p cursor = p' cursor ∧ Viable C P p' q agree Q) :
    Viable C P p q agree Q where
  advances := by
    intro cursor value after read
    obtain ⟨p', same, viable⟩ := each cursor
    rw [same] at read
    exact viable.advances read
  honest := by
    intro cursor
    obtain ⟨p', same, viable⟩ := each cursor
    rw [same]
    exact viable.honest cursor
  ends := by
    intro position text value rest stands read
    obtain ⟨p', same, viable⟩ := each ⟨text ++ rest, position⟩
    rw [Takes, same] at read
    rw [same]
    exact viable.ends stands read
  keeps := by
    intro position text value rest position' stands read
    obtain ⟨p', same, viable⟩ := each ⟨text ++ rest, position⟩
    rw [Takes, same] at read
    exact viable.keeps position' stands read
  completes := by
    intro position text offset position' stands noted
    obtain ⟨p', same, viable⟩ := each ⟨text, position⟩
    rw [same] at noted
    exact viable.completes position' stands noted

theorem bounded {within : List Char → Parser α}
    (viable : ∀ bound, Viable C P (within bound) q agree Q) :
    Viable C P (bounded within) q agree Q :=
  .each fun cursor => ⟨within cursor.bound, rfl, viable cursor.bound⟩

theorem congr (viable : Viable C P p q agree Q)
    (same : ∀ cursor, (q cursor).result = (q' cursor).result) : Viable C P p q' agree Q where
  advances := viable.advances
  honest := viable.honest
  ends := viable.ends
  keeps := by
    intro position text value rest position' stands read aligned
    obtain ⟨value', again⟩ := viable.keeps position' stands read aligned
    refine ⟨value', fun rest' related => ?_⟩
    rw [Takes, ← same]
    exact again rest' related
  completes := by
    intro position text offset position' stands noted aligned
    refine (viable.completes position' stands noted aligned).imp id ?_
    rintro ⟨read, unread, more, rfl, units, goesOn⟩
    refine ⟨read, unread, more, rfl, units, fun rest fresh => ?_⟩
    simp only [Takes, ← same]
    exact goesOn rest fresh

theorem spanned {p q : Parser (Span → α)} (viable : Viable C P p q (fun make make' =>
      ∀ span span' : Span, span.move C.left = span'.move C.right → agree (make span) (make' span')) Q) :
    Viable C P (spanned p) (Parser.spanned q) agree Q := by
  refine ⟨?_, ?_, ?_, ?_, ?_⟩
  · intro cursor value after read
    obtain ⟨make, read, -⟩ := spanned_some.mp read
    exact viable.advances read
  · intro cursor
    rw [furthest_spanned]
    exact viable.honest cursor
  · intro position text value rest stands read
    obtain ⟨make, read, -⟩ := spanned_some.mp read
    rw [furthest_spanned]
    exact viable.ends stands read
  · intro position text value rest position' stands read same
    obtain ⟨make, inner, rfl⟩ := spanned_some.mp read
    have taken : Takes p position text make rest := inner
    obtain ⟨make', again⟩ := viable.keeps position' stands taken same
    refine ⟨make' ⟨position', position'.after text⟩, fun rest' related => ?_⟩
    obtain ⟨related, read, known⟩ := again rest' related
    refine ⟨related, read.spanned, known _ _ ?_⟩
    rw [Span.move, Span.move, same, Comparison.after_eq same text]
  · intro position text offset position' stands noted same
    rw [furthest_spanned] at noted
    refine (viable.completes position' stands noted same).imp id ?_
    rintro ⟨read, unread, more, rfl, units, goesOn⟩
    refine ⟨read, unread, more, rfl, units, fun rest fresh => ?_⟩
    obtain ⟨related, make, taken⟩ := goesOn rest fresh
    exact ⟨related, _, taken.spanned⟩

theorem bind [Nonempty α] (first : Viable C P p q agree M)
    (onward : ∀ value value', Sampled C M sample (next value) (next' value')
      (fun made made' => agree value value' → agree' made made') Q) :
    Viable C P (p >>= next) (q >>= next') agree' Q := by
  rw [bind_eq_commit, bind_eq_commit]
  exact first.commit onward .fail nofun

theorem or [Nonempty α] (first : Viable C P p q agree Q) (second : Viable C P p' q' agree Q)
    (excludes : ∀ {position text value rest}, P.Allows (text ++ rest) →
      Takes q' position text value rest → Q.Allows rest → (q ⟨text ++ rest, position⟩).result = none) :
    Viable C P (p.or p') (q.or q') agree Q := by
  rw [or_eq_commit, or_eq_commit]
  have nothing (value value' : α) : Sampled C Q [] (Pure.pure value) (Pure.pure value')
      (fun made made' => agree value value' → agree made made') Q :=
    ⟨.pure id (.refl Q), fun rest fresh => ⟨fresh, fun _ => ⟨value', rfl⟩⟩⟩
  exact first.commit nothing second excludes

end Viable

namespace Sampled

theorem cast (sampled : Sampled C P sample p q agree Q) (same : sample = sample') :
    Sampled C P sample' p q agree Q := same ▸ sampled

theorem pure {value value' : α} (known : agree value value') (within : Q.Within P) :
    Sampled C P [] (Pure.pure value) (Pure.pure value') agree Q :=
  ⟨.pure known within, fun _ fresh => ⟨within.fresh fresh, fun _ => ⟨value', rfl⟩⟩⟩

theorem imp (sampled : Sampled C P sample p q agree Q) (weakens : ∀ value value',
    agree value value' → weaker value value') (wider : P.Within P') (within : Q'.Within Q) :
    Sampled C P' sample p q weaker Q' := by
  refine ⟨sampled.toViable.imp weakens wider within, fun rest fresh => ?_⟩
  obtain ⟨fresh, reads⟩ := sampled.samples rest (within.fresh fresh)
  exact ⟨wider.fresh fresh, reads⟩

theorem congr (sampled : Sampled C P sample p q agree Q)
    (same : ∀ cursor, (q cursor).result = (q' cursor).result) : Sampled C P sample p q' agree Q := by
  have samples := sampled.samples
  simp only [Samples, Takes, same] at samples
  exact ⟨sampled.toViable.congr same, samples⟩

theorem bounded {within : List Char → Parser α}
    (sampled : ∀ bound, Sampled C P sample (within bound) q agree Q) :
    Sampled C P sample (bounded within) q agree Q :=
  ⟨.bounded fun bound => (sampled bound).toViable, (sampled []).samples⟩

theorem spanned {p q : Parser (Span → α)} (sampled : Sampled C P sample p q (fun make make' =>
      ∀ span span' : Span, span.move C.left = span'.move C.right → agree (make span) (make' span')) Q) :
    Sampled C P sample (spanned p) (Parser.spanned q) agree Q := by
  refine ⟨sampled.toViable.spanned, fun rest fresh => ?_⟩
  obtain ⟨fresh, reads⟩ := sampled.samples rest fresh
  refine ⟨fresh, fun position => ?_⟩
  obtain ⟨make, read⟩ := reads position
  exact ⟨_, read.spanned⟩

theorem commit [Nonempty α] {other other' : Parser β} (first : Sampled C P sample p q agree M)
    (onward : ∀ value value', Sampled C M sample' (next value) (next' value')
      (fun made made' => agree value value' → agree' made made') Q)
    (others : Viable C P other other' agree' Q)
    (excludes : ∀ {position text value rest}, P.Allows (text ++ rest) →
      Takes other' position text value rest → Q.Allows rest →
        (q ⟨text ++ rest, position⟩).result = none) :
    Sampled C P (sample ++ sample') (Grammar.commit p next other) (Grammar.commit q next' other')
      agree' Q := by
  refine ⟨first.toViable.commit onward others excludes, fun rest fresh => ?_⟩
  obtain ⟨some⟩ : Nonempty α := inferInstance
  obtain ⟨fresh', -⟩ := (onward some some).samples rest fresh
  obtain ⟨fresh', reads⟩ := first.samples _ fresh'
  rw [List.append_assoc]
  refine ⟨fresh', fun position => ?_⟩
  obtain ⟨value, here⟩ := reads position
  obtain ⟨made, later⟩ := ((onward some value).samples rest fresh).2 (position.after sample)
  exact ⟨made, takes_next here later⟩

theorem bind [Nonempty α] (first : Sampled C P sample p q agree M)
    (onward : ∀ value value', Sampled C M sample' (next value) (next' value')
      (fun made made' => agree value value' → agree' made made') Q) :
    Sampled C P (sample ++ sample') (p >>= next) (q >>= next') agree' Q := by
  rw [bind_eq_commit, bind_eq_commit]
  exact first.commit onward .fail nofun

theorem skip [Nonempty α] (first : Sampled C P sample p q agree M)
    (onward : ∀ value value', Sampled C M sample' (next value) (next' value') agree' Q) :
    Sampled C P (sample ++ sample') (p >>= next) (q >>= next') agree' Q :=
  first.bind fun value value' => (onward value value').imp (fun _ _ known _ => known) (.refl M) (.refl Q)

theorem or [Nonempty α] (first : Sampled C P sample p q agree Q)
    (second : Viable C P p' q' agree Q)
    (excludes : ∀ {position text value rest}, P.Allows (text ++ rest) →
      Takes q' position text value rest → Q.Allows rest → (q ⟨text ++ rest, position⟩).result = none) :
    Sampled C P sample (p.or p') (q.or q') agree Q := by
  rw [or_eq_commit, or_eq_commit]
  have nothing (value value' : α) : Sampled C Q [] (Pure.pure value) (Pure.pure value')
      (fun made made' => agree value value' → agree made made') Q := .pure id (.refl Q)
  exact (first.commit nothing second excludes).cast (List.append_nil sample)

theorem or_second [Nonempty α] (first : Viable C P p q agree Q)
    (second : Sampled C P sample p' q' agree Q)
    (excludes : ∀ {position text value rest}, P.Allows (text ++ rest) →
      Takes q' position text value rest → Q.Allows rest → (q ⟨text ++ rest, position⟩).result = none) :
    Sampled C P sample (p.or p') (q.or q') agree Q := by
  refine ⟨first.or second.toViable excludes, fun rest fresh => ?_⟩
  obtain ⟨begins, reads⟩ := second.samples rest fresh
  refine ⟨begins, fun position => ?_⟩
  obtain ⟨value, taken⟩ := reads position
  exact ⟨value, taken.or_right
    (excludes (P.allows_of_fresh begins) taken (Q.allows_of_fresh fresh))⟩

theorem or_fail [Nonempty α] (only : Sampled C P sample p q agree Q) :
    Sampled C P sample (p.or fail) (q.or fail) agree Q :=
  only.or .fail nofun

theorem map [Nonempty α] {make make' : α → β} (sampled : Sampled C P sample p q agree Q)
    (known : ∀ value value', agree value value' → agree' (make value) (make' value')) :
    Sampled C P sample (do return make (← p)) (do return make' (← q)) agree' Q :=
  (sampled.bind fun value value' => .pure (known value value') (.refl Q)).cast (List.append_nil _)

end Sampled

theorem Sampled.option [Nonempty α] {next next' : Option α → Parser β}
    (first : Sampled C P sample p q agree M)
    (onward : ∀ value value', Sampled C M sample' (next (some value)) (next' (some value')) agree' Q)
    (others : Viable C P (next none) (next' none) agree' Q)
    (excludes : ∀ {position text value rest}, P.Allows (text ++ rest) →
      Takes (next' none) position text value rest → Q.Allows rest →
        (q ⟨text ++ rest, position⟩).result = none) :
    Sampled C P (sample ++ sample') (Parser.optional p >>= next) (Parser.optional q >>= next') agree'
      Q := by
  rw [optional_bind, optional_bind]
  exact first.commit (fun value value' => (onward value value').imp (fun _ _ known _ => known)
    (.refl M) (.refl Q)) others excludes

abbrev Unasked : α → α → Prop := fun _ _ => True

theorem Sampled.unasked (sampled : Sampled C P sample p q agree Q) :
    Sampled C P sample p q Unasked Q :=
  sampled.imp (fun _ _ _ => trivial) (.refl P) (.refl Q)

theorem Viable.spanned_unasked {p q : Parser (Span → α)} (viable : Viable C P p q Unasked Q) :
    Viable C P (Parser.spanned p) (Parser.spanned q) Unasked Q :=
  .spanned (viable.imp (fun _ _ _ _ _ _ => trivial) (.refl P) (.refl Q))

theorem Sampled.spanned_unasked {p q : Parser (Span → α)} (sampled : Sampled C P sample p q Unasked Q) :
    Sampled C P sample (Parser.spanned p) (Parser.spanned q) Unasked Q :=
  .spanned (sampled.imp (fun _ _ _ _ _ _ => trivial) (.refl P) (.refl Q))

theorem Viable.skip [Nonempty α] (first : Viable C P p q agree M)
    (onward : ∀ value value', Sampled C M sample (next value) (next' value') agree' Q) :
    Viable C P (p >>= next) (q >>= next') agree' Q :=
  first.bind fun value value' => (onward value value').imp (fun _ _ known _ => known) (.refl M) (.refl Q)

namespace Sampled

theorem optional [Nonempty α] (item : Viable C P p q agree Q) (within : Q.Within P)
    (stops : ∀ position rest, Q.Allows rest → (q ⟨rest, position⟩).result = none) :
    Sampled C P [] (optional p) (Parser.optional q) (fun _ _ => True) Q := by
  have taken : Viable C P (p >>= fun value => Pure.pure (some value))
      (q >>= fun value => Pure.pure (some value)) (fun _ _ => True) Q :=
    item.bind fun _ _ => .pure (fun _ => trivial) (.refl Q)
  have fails (position : Position) (rest : List Char) (allows : Q.Allows rest) :
      ((q >>= fun value => Pure.pure (some value)) ⟨rest, position⟩).result = none := by
    rw [result_bind, stops position rest allows]
  refine ⟨taken.or (.pure trivial within) ?_, fun rest fresh => ⟨within.fresh fresh, fun position => ?_⟩⟩
  · intro position text value rest _ read allows
    obtain ⟨rfl, -⟩ := takes_nothing read
    exact fails position rest allows
  · refine ⟨none, ?_⟩
    change ((Parser.or _ _ _).result) = _
    rw [result_or]
    exact (congrArg (Option.or · _) (fails position rest (Q.allows_of_fresh fresh))).trans rfl

theorem many_unfold (consumes : Consumes q) (cursor : Cursor) :
    ((do
      let first ← q
      let rest ← many q
      return first :: rest).or (Pure.pure []) cursor).result = (many q cursor).result := by
  rw [result_or, result_bind]
  rcases here : (q cursor).result with _ | ⟨first, middle⟩
  · exact (many_eq consumes (.done cursor) here).symm
  · obtain ⟨rest, after, read, repeats, stops⟩ := many_result consumes middle
    rw [many_eq consumes (.more here repeats) stops]
    simp only [result_bind, read]
    rfl

theorem manyWithin [Nonempty α] {f g : α → γ} (consumes : Consumes q)
    (item : Viable C P p q (fun value value' => f value = g value') P) (within : Q.Within P)
    (stops : ∀ position rest, Q.Allows rest → (q ⟨rest, position⟩).result = none)
    (bound : List Char) :
    Sampled C P [] (manyWithin p bound) (many q)
      (fun values values' => values.map f = values'.map g) Q := by
  -- On the bound. Where it is used up nothing more is read, and before what may come the other parser
  -- reads nothing either.
  have nothing (position : Position) (rest : List Char) (allows : Q.Allows rest) :
      Takes (many q) position [] [] rest :=
    many_eq consumes (.done _) (stops position rest allows)
  refine ⟨?_, fun rest fresh =>
    ⟨within.fresh fresh, fun position => ⟨[], nothing position rest (Q.allows_of_fresh fresh)⟩⟩⟩
  induction bound with
  | nil => exact .skips rfl within nothing
  | cons _ bound ih =>
    have more : Sampled C P [] (Parser.manyWithin p bound) (many q)
        (fun values values' => values.map f = values'.map g) Q :=
      ⟨ih, fun rest fresh =>
        ⟨within.fresh fresh, fun position => ⟨[], nothing position rest (Q.allows_of_fresh fresh)⟩⟩⟩
    have goesOn : Viable C P (do
        let first ← p
        let rest ← Parser.manyWithin p bound
        return first :: rest) (do
        let first ← q
        let rest ← many q
        return first :: rest) (fun values values' => values.map f = values'.map g) Q := by
      refine item.bind fun first first' => more.bind fun rest rest' => .pure ?_ (.refl Q)
      intro same same'
      rw [List.map_cons, List.map_cons, same, same']
    refine (goesOn.or (.pure rfl within) ?_).congr (many_unfold consumes)
    intro position text value rest _ read allows
    obtain ⟨rfl, -⟩ := takes_nothing read
    rw [result_bind, List.nil_append, stops position rest allows]

theorem many [Nonempty α] {f g : α → γ} (consumes : Consumes q)
    (item : Viable C P p q (fun value value' => f value = g value') P) (within : Q.Within P)
    (stops : ∀ position rest, Q.Allows rest → (q ⟨rest, position⟩).result = none) :
    Sampled C P [] (many p) (Parser.many q)
      (fun values values' => values.map f = values'.map g) Q := by
  refine ⟨.each fun cursor => ?_, (manyWithin consumes item within stops []).samples⟩
  exact ⟨Parser.manyWithin p cursor.bound, rfl,
    (manyWithin consumes item within stops cursor.bound).toViable⟩

end Sampled

end LeoFront.Grammar
